import Mathlib.Data.List.GetD
import PyTorchCore.Ddp.Reducer

/-!
# The order of the collectives

A backward pass after `prepare_for_backward`, with any set of unused parameters and any
order of the hooks of the others.
-/

namespace PyTorchCore.Ddp

open Function List Reducer

universe u

namespace Assignment

variable {n : Nat} (A : Assignment n)

variable {i : Nat}

theorem bucket_mem (h : i < A.buckets.length) : A.bucket i ∈ A.buckets := by
  rw [bucket, getD_eq_getElem _ _ h]
  exact getElem_mem h

theorem locator_lt (v : Fin n) : A.locator v < A.buckets.length := by
  rw [locator, findIdx_lt_length]
  obtain ⟨b, hb, hv⟩ := mem_flatten.mp (A.complete v)
  exact ⟨b, hb, by simpa using hv⟩

theorem mem_bucket_locator (v : Fin n) : v ∈ A.bucket (A.locator v) := by
  rw [bucket, getD_eq_getElem _ _ (A.locator_lt v)]
  have h := findIdx_getElem (w := A.locator_lt v)
  exact of_decide_eq_true h

theorem bucket_eq_nil (h : A.buckets.length ≤ i) : A.bucket i = [] :=
  getD_eq_default _ _ h

variable {v : Fin n}

theorem locator_eq (h : v ∈ A.bucket i) : A.locator v = i := by
  have hi : i < A.buckets.length := by
    by_contra hi
    rw [A.bucket_eq_nil (by omega)] at h
    cases h
  have hdisjoint := (nodup_flatten.mp A.nodup).2
  have hv := A.mem_bucket_locator v
  rw [bucket, getD_eq_getElem _ _ hi] at h
  rw [bucket, getD_eq_getElem _ _ (A.locator_lt v)] at hv
  rcases Nat.lt_trichotomy (A.locator v) i with hlt | heq | hlt
  · exact absurd h (pairwise_iff_getElem.mp hdisjoint _ _ (A.locator_lt v) hi hlt hv)
  · exact heq
  · exact absurd hv (pairwise_iff_getElem.mp hdisjoint _ _ hi (A.locator_lt v) hlt h)

theorem bucket_nodup (i : Nat) : (A.bucket i).Nodup := by
  by_cases hi : i < A.buckets.length
  · exact (nodup_flatten.mp A.nodup).1 _ (A.bucket_mem hi)
  · rw [A.bucket_eq_nil (by omega)]
    exact nodup_nil

/-- The parameters of a bucket that are not ready. -/
def unready (ready : Finset (Fin n)) (i : Nat) : Nat :=
  ((A.bucket i).filter (fun v => v ∉ ready)).length

variable {ready : Finset (Fin n)}

theorem unready_eq_zero :
    A.unready ready i = 0 ↔ ∀ v ∈ A.bucket i, v ∈ ready := by
  rw [unready, length_eq_zero_iff, filter_eq_nil_iff]
  simp

theorem unready_insert_of_ne
    (h : A.locator v ≠ i) : A.unready (insert v ready) i = A.unready ready i := by
  rw [unready, unready, filter_congr]
  intro w hw
  have hne : w ≠ v := fun heq => h (A.locator_eq (heq ▸ hw))
  simp [hne]

theorem unready_insert (h : v ∉ ready) :
    A.unready ready (A.locator v) = A.unready (insert v ready) (A.locator v) + 1 := by
  have hsplit : ∀ l : List (Fin n), l.Nodup → v ∈ l → (l.filter (fun w => w ∉ ready)).length =
        (l.filter (fun w => w ∉ insert v ready)).length + 1 := by
    intro l
    induction l with
    | nil => exact fun _ hv => absurd hv not_mem_nil
    | cons w l ih =>
      intro hnodup hv
      obtain ⟨hw, hl⟩ := nodup_cons.mp hnodup
      rcases mem_cons.mp hv with rfl | hv
      · have hrest : l.filter (fun w => w ∉ insert v ready) = l.filter (fun w => w ∉ ready) :=
          filter_congr (fun x hx => by
            have hne : x ≠ v := fun heq => hw (heq ▸ hx)
            simp [hne])
        rw [filter_cons_of_pos (by simpa using h), filter_cons_of_neg (by simp), hrest, length_cons]
      · have hne : w ≠ v := fun heq => hw (heq ▸ hv)
        by_cases hready : w ∈ ready
        · simpa [hready] using ih hl hv
        · simpa [hready, hne] using ih hl hv
  exact hsplit _ (A.bucket_nodup _) (A.mem_bucket_locator v)

end Assignment

section Fields

variable {n : Nat} {M : Type u}

/-- The gradient that a parameter has. -/
def Reducer.value (s : Reducer n M) (v : Fin n) : Option M :=
  match s.grad v with
  | .undefined => none
  | .stored g => some g
  | .bucketView => some (s.contents v)

variable [AddCommGroup M]

def addGrad : Option M → Option M → Option M
  | old, none => old
  | none, some g => some g
  | some h, some g => some (h + g)

@[simp] theorem value_accumulate (s : Reducer n M) (v : Fin n) (g : Option M) :
    (accumulate v g s).value v = addGrad (s.value v) g := by
  cases g with
  | none => cases h : s.value v <;> simp [accumulate, addGrad, h]
  | some g => cases h : s.grad v <;> simp [accumulate, addGrad, value, h]

end Fields

section Launch

variable {n : Nat} {M : Type u} {cfg : Config n}

/-- The state in which the next `m` buckets were launched. -/
def Reducer.launch (m : Nat) (s : Reducer n M) : Reducer n M :=
  { s with
    nextBucket := s.nextBucket + m
    futureWork := fun i =>
      if s.nextBucket ≤ i ∧ i < s.nextBucket + m then true else s.futureWork i
    issued := s.issued ++ (List.range' s.nextBucket m).map (fun i => .bucket i s.contents) }

theorem launch_zero (s : Reducer n M) : s.launch 0 = s := by
  have hfuture : (fun i => if s.nextBucket ≤ i ∧ i < s.nextBucket + 0 then true
      else s.futureWork i) = s.futureWork :=
    funext (fun i => if_neg (by omega))
  rw [launch, hfuture, range'_zero, map_nil, append_nil, Nat.add_zero]

theorem launch_succ (s : Reducer n M) (m : Nat) :
    launch m { allReduceBucket s with nextBucket := s.nextBucket + 1 } =
      s.launch (m + 1) := by
  have hfuture : (fun i => if s.nextBucket + 1 ≤ i ∧ i < s.nextBucket + 1 + m then true
      else update s.futureWork s.nextBucket true i) =
      (fun i => if s.nextBucket ≤ i ∧ i < s.nextBucket + (m + 1) then true
        else s.futureWork i) := by
    funext i
    by_cases hi : i = s.nextBucket
    · subst hi
      simp
    · rw [update_of_ne hi]
      congr 1
      rw [eq_iff_iff]
      omega
  simp only [launch, allReduceBucket, hfuture, range'_succ, map_cons,
    append_assoc, singleton_append, Reducer.mk.injEq, true_and, and_true]
  omega

/-- The loop of `mark_bucket_ready` launches the buckets in turn, up to the first one
that is pending. -/
theorem launchReady_eq (cfg : Config n) (k : Nat) (s : Reducer n M)
    (hk : s.nextBucket + k = cfg.assignment.buckets.length) :
    ∃ m ≤ k, launchReady cfg k s = s.launch m ∧ (∀ i < m, s.bucketPending (s.nextBucket + i) = 0) ∧
      (m < k → s.bucketPending (s.nextBucket + m) ≠ 0) := by
  induction k generalizing s with
  | zero =>
    exact ⟨0, le_rfl, (launch_zero s).symm, fun i hi => absurd hi (by omega),
      fun h => absurd h (by omega)⟩
  | succ k ih =>
    rw [launchReady]
    by_cases hpending : s.bucketPending s.nextBucket = 0
    · rw [if_pos ⟨by omega, hpending⟩]
      obtain ⟨m, hm, heq, hzero, hstop⟩ :=
        ih { allReduceBucket s with nextBucket := s.nextBucket + 1 } (by simp only; omega)
      refine ⟨m + 1, by omega, heq.trans (launch_succ s m), ?_, ?_⟩
      · intro i hi
        cases i with
        | zero => exact hpending
        | succ i =>
          have hi' := hzero i (by omega)
          rwa [show s.nextBucket + (i + 1) = s.nextBucket + 1 + i by omega]
      · intro hlt
        have hm' := hstop (by omega)
        rwa [show s.nextBucket + (m + 1) = s.nextBucket + 1 + m by omega]
    · rw [if_neg (fun h => hpending h.2)]
      exact ⟨0, by omega, (launch_zero s).symm, fun i hi => absurd hi (by omega),
        fun _ => hpending⟩

end Launch

section Progress

variable {n : Nat} {M : Type u} [AddCommGroup M] [Module ℚ M]

/-- The gradient of a parameter in the bucket, divided by the number of ranks. -/
def scaled (cfg : Config n) (localGrad : Fin n → Option M) (v : Fin n) : M :=
  (cfg.worldSize : ℚ)⁻¹ • (localGrad v).getD 0

/-- The `grad` field of a parameter that was marked. -/
def markedField (cfg : Config n) (g : Option M) : Grad M :=
  match g with
  | none => .undefined
  | some g => if cfg.gradientAsBucketView then .bucketView else .stored g

/-- The used map, after the hooks of the parameters in `hooked`. -/
def usedAfter (cfg : Config n) (localGrad : Fin n → Option M) (hooked : Finset (Fin n))
    (v : Fin n) : Nat :=
  if cfg.findUnusedParameters ∧ v ∈ hooked ∧ (localGrad v).isSome then 1 else 0

/-- A collective that carries what the rank contributes to it. -/
def Contributes (cfg : Config n) (localGrad : Fin n → Option M) (used : Fin n → Nat) :
    Collective n M → Prop
  | .bucket i values => ∀ v ∈ cfg.assignment.bucket i, values v = scaled cfg localGrad v
  | .usedMap map => map = used

/-- The requests of a pass, in the order of the buckets. -/
def schedule (cfg : Config n) : List Request :=
  (List.range cfg.assignment.buckets.length).map Request.bucket ++
    if cfg.findUnusedParameters then [.usedMap] else []

/-- The state of a pass that started in `s₀`, with the gradients at its end and the parameters
whose hooks were called. -/
structure Progress (cfg : Config n) (localGrad : Fin n → Option M) (s₀ : Reducer n M)
    (hooked : Finset (Fin n)) (s : Reducer n M) : Prop where
  expect : s.expectAutogradHooks = true
  required : s.readyParams.Nonempty → s.requireFinalize = true
  divFactor : s.divFactor = none ∨ s.divFactor = some cfg.worldSize
  replica : ∀ i, s.replicaPending i = cfg.assignment.unready s.readyParams i
  pending : ∀ i < cfg.assignment.buckets.length,
    s.bucketPending i = if cfg.assignment.unready s.readyParams i = 0 then 0 else 1
  next_le : s.nextBucket ≤ cfg.assignment.buckets.length
  launched : ∀ i < s.nextBucket, cfg.assignment.unready s.readyParams i = 0
  waiting : s.nextBucket < cfg.assignment.buckets.length →
    cfg.assignment.unready s.readyParams s.nextBucket ≠ 0
  future : ∀ i < s.nextBucket, s.futureWork i = true
  callbacks : s.callbacks =
    s₀.callbacks + if s.nextBucket = cfg.assignment.buckets.length then 1 else 0
  issued : ∃ log, s.issued = s₀.issued ++ log ∧
    log.map Collective.request = (schedule cfg).take
      (if s.nextBucket = cfg.assignment.buckets.length then (schedule cfg).length
        else s.nextBucket) ∧
    ∀ c ∈ log, Contributes cfg localGrad (usedAfter cfg localGrad hooked) c
  used : s.localUsedMap = usedAfter cfg localGrad hooked
  reduced : s.localUsedMapReduced = false
  fields : ∀ v ∈ s.readyParams, s.grad v = markedField cfg (localGrad v)
  copied : ∀ v ∈ s.readyParams, s.contents v = scaled cfg localGrad v
  ownField : cfg.gradientAsBucketView = false → ∀ v, s.grad v ≠ .bucketView
  noUnused : cfg.findUnusedParameters = false → s.unusedParameters = []

variable {cfg : Config n} {localGrad : Fin n → Option M} {s₀ s : Reducer n M}
  {hooked : Finset (Fin n)} {v : Fin n}

/-- What holds between a parameter that was counted and the launch of the buckets: some bucket is
not launched yet. -/
structure Counted (cfg : Config n) (localGrad : Fin n → Option M) (s₀ : Reducer n M)
    (hooked : Finset (Fin n)) (s : Reducer n M) : Prop where
  expect : s.expectAutogradHooks = true
  required : s.readyParams.Nonempty → s.requireFinalize = true
  divFactor : s.divFactor = none ∨ s.divFactor = some cfg.worldSize
  replica : ∀ i, s.replicaPending i = cfg.assignment.unready s.readyParams i
  pending : ∀ i < cfg.assignment.buckets.length,
    s.bucketPending i = if cfg.assignment.unready s.readyParams i = 0 then 0 else 1
  next_lt : s.nextBucket < cfg.assignment.buckets.length
  launched : ∀ i < s.nextBucket, cfg.assignment.unready s.readyParams i = 0
  future : ∀ i < s.nextBucket, s.futureWork i = true
  callbacks : s.callbacks = s₀.callbacks
  issued : ∃ log, s.issued = s₀.issued ++ log ∧
    log.map Collective.request = (List.range s.nextBucket).map Request.bucket ∧
    ∀ c ∈ log, Contributes cfg localGrad (usedAfter cfg localGrad hooked) c
  used : s.localUsedMap = usedAfter cfg localGrad hooked
  reduced : s.localUsedMapReduced = false
  fields : ∀ v ∈ s.readyParams, s.grad v = markedField cfg (localGrad v)
  copied : ∀ v ∈ s.readyParams, s.contents v = scaled cfg localGrad v
  ownField : cfg.gradientAsBucketView = false → ∀ v, s.grad v ≠ .bucketView
  noUnused : cfg.findUnusedParameters = false → s.unusedParameters = []

theorem schedule_take {k : Nat} (h : k ≤ cfg.assignment.buckets.length) :
    (schedule cfg).take k = (List.range k).map Request.bucket := by
  have hlength : k ≤ ((List.range cfg.assignment.buckets.length).map Request.bucket).length := by
    simpa using h
  rw [schedule, take_append_of_le_length hlength, ← map_take, take_range, min_eq_left h]

section

variable (h : Progress cfg localGrad s₀ hooked s) (hv : v ∉ s.readyParams)
include h hv

theorem Progress.next_lt :
    s.nextBucket < cfg.assignment.buckets.length := by
  by_contra hnot
  have hlocator := cfg.assignment.locator_lt v
  have hready := cfg.assignment.unready_eq_zero.mp
    (h.launched (cfg.assignment.locator v) (by omega))
  exact hv (hready v (cfg.assignment.mem_bucket_locator v))

/-- A pass in progress has counted the parameters that are ready. -/
theorem Progress.counted :
    Counted cfg localGrad s₀ hooked s := by
  have hlt := h.next_lt hv
  have hne : s.nextBucket ≠ cfg.assignment.buckets.length := by omega
  obtain ⟨log, hlog, hrequests, hcontributes⟩ := h.issued
  rw [if_neg hne, schedule_take h.next_le] at hrequests
  have hcallbacks := h.callbacks
  rw [if_neg hne, Nat.add_zero] at hcallbacks
  exact ⟨h.expect, h.required, h.divFactor, h.replica, h.pending, hlt, h.launched, h.future,
    hcallbacks, ⟨log, hlog, hrequests, hcontributes⟩, h.used, h.reduced, h.fields, h.copied,
    h.ownField, h.noUnused⟩

end

section

variable (h : Counted cfg localGrad s₀ hooked s) {m : Nat}
  (hzero : ∀ i < m, cfg.assignment.unready s.readyParams (s.nextBucket + i) = 0)
include h hzero

theorem Counted.launch_issued :
    ∃ log, (s.launch m).issued = s₀.issued ++ log ∧
      log.map Collective.request = (List.range (s.nextBucket + m)).map Request.bucket ∧
      ∀ c ∈ log, Contributes cfg localGrad (usedAfter cfg localGrad hooked) c := by
  obtain ⟨log, hlog, hrequests, hcontributes⟩ := h.issued
  refine ⟨log ++ (range' s.nextBucket m).map (fun i => .bucket i s.contents), ?_, ?_, ?_⟩
  · rw [launch, hlog, append_assoc]
  · rw [map_append, hrequests, map_map, range_add, map_append,
      range'_eq_map_range, map_map, map_map]
    rfl
  · intro c hc
    rcases mem_append.mp hc with hc | hc
    · exact hcontributes c hc
    · obtain ⟨i, hi, rfl⟩ := mem_map.mp hc
      rw [mem_range'_1] at hi
      intro w hw
      refine h.copied w (cfg.assignment.unready_eq_zero.mp ?_ w hw)
      have hi' := hzero (i - s.nextBucket) (by omega)
      rwa [show s.nextBucket + (i - s.nextBucket) = i by omega] at hi'

theorem Counted.queueFinalize (hm : s.nextBucket + m ≤ cfg.assignment.buckets.length)
    (hstop : s.nextBucket + m < cfg.assignment.buckets.length → cfg.assignment.unready
      s.readyParams (s.nextBucket + m) ≠ 0) :
    Progress cfg localGrad s₀ hooked (queueFinalize cfg (s.launch m)) := by
  obtain ⟨log, hlog, hrequests, hcontributes⟩ := h.launch_issued hzero
  have hlaunched : ∀ i < s.nextBucket + m, cfg.assignment.unready s.readyParams i = 0 := by
    intro i hi
    by_cases hold : i < s.nextBucket
    · exact h.launched i hold
    · have hi' := hzero (i - s.nextBucket) (by omega)
      rwa [show s.nextBucket + (i - s.nextBucket) = i by omega] at hi'
  have hfuture : ∀ i < s.nextBucket + m, (s.launch m).futureWork i = true := by
    intro i hi
    simp only [launch]
    split
    · rfl
    · exact h.future i (by omega)
  unfold Ddp.queueFinalize
  by_cases hlast : s.nextBucket + m = cfg.assignment.buckets.length
  · have hnext : (s.launch m).nextBucket = cfg.assignment.buckets.length := hlast
    rw [if_pos hnext]
    cases hfind : cfg.findUnusedParameters with
    | false =>
      refine ⟨h.expect, h.required, h.divFactor, h.replica, h.pending, hm, hlaunched, hstop,
        hfuture, ?_, ⟨log, hlog, ?_, hcontributes⟩, h.used, h.reduced, h.fields, h.copied,
        h.ownField, h.noUnused⟩
      · simp only [Bool.false_eq_true, if_false, hnext, if_true]
        exact congrArg (· + 1) h.callbacks
      · simp only [Bool.false_eq_true, if_false, hnext, if_true]
        rw [hrequests, take_length, schedule, hfind, hlast]
        simp
    | true =>
      refine ⟨h.expect, h.required, h.divFactor, h.replica, h.pending, hm, hlaunched, hstop,
        hfuture, ?_, ⟨log ++ [.usedMap s.localUsedMap], ?_, ?_, ?_⟩, h.used, h.reduced, h.fields,
        h.copied, h.ownField, h.noUnused⟩
      · simp only [if_true, allReduceLocalUsedMap, hnext]
        exact congrArg (· + 1) h.callbacks
      · simp only [if_true, allReduceLocalUsedMap]
        rw [hlog, append_assoc]
        rfl
      · simp only [if_true, allReduceLocalUsedMap, hnext]
        rw [map_append, hrequests, take_length, schedule, hfind, hlast]
        simp [Collective.request]
      · intro c hc
        rcases mem_append.mp hc with hc | hc
        · exact hcontributes c hc
        · rw [mem_singleton.mp hc]
          exact h.used
  · have hnext : (s.launch m).nextBucket ≠ cfg.assignment.buckets.length := hlast
    rw [if_neg hnext]
    refine ⟨h.expect, h.required, h.divFactor, h.replica, h.pending, hm, hlaunched, hstop,
      hfuture, ?_, ⟨log, hlog, ?_, hcontributes⟩, h.used, h.reduced, h.fields, h.copied,
      h.ownField, h.noUnused⟩
    · rw [if_neg hnext]
      exact h.callbacks
    · rw [if_neg hnext, hrequests]
      exact (schedule_take hm).symm

end

theorem markVariableReadyDense_eq (cfg : Config n) (hvalue : s.value v = localGrad v)
    (hused : s.localUsedMap = usedAfter cfg localGrad hooked)
    (hown : cfg.gradientAsBucketView = false → s.grad v ≠ .bucketView) :
    markVariableReadyDense cfg v cfg.worldSize s = .ok { s with
      contents := update s.contents v (scaled cfg localGrad v)
      grad := update s.grad v (markedField cfg (localGrad v)) } := by
  unfold markVariableReadyDense
  cases hgrad : s.grad v with
  | undefined =>
    have hnone : localGrad v = none := by rw [← hvalue, value, hgrad]
    have hzero : s.localUsedMap v = 0 := by simp [hused, usedAfter, hnone]
    have hfield : update s.grad v (markedField cfg (localGrad v)) = s.grad := by
      rw [hnone, markedField, ← hgrad, update_eq_self]
    rw [hfield]
    simp [hzero, scaled, hnone]
  | stored g =>
    have hsome : localGrad v = some g := by rw [← hvalue, value, hgrad]
    cases hview : cfg.gradientAsBucketView with
    | false =>
      have hfield : update s.grad v (markedField cfg (localGrad v)) = s.grad := by
        rw [hsome, markedField, hview]
        exact (congrArg _ hgrad.symm).trans (update_eq_self v s.grad)
      rw [hfield]
      simp [scaled, hsome]
    | true => simp [scaled, hsome, markedField, hview]
  | bucketView =>
    have hsome : localGrad v = some (s.contents v) := by rw [← hvalue, value, hgrad]
    cases hview : cfg.gradientAsBucketView with
    | false => exact absurd hgrad (hown hview)
    | true =>
      have hfield : update s.grad v (markedField cfg (localGrad v)) = s.grad := by
        rw [hsome, markedField, hview]
        exact (congrArg _ hgrad.symm).trans (update_eq_self v s.grad)
      rw [hfield]
      simp [scaled, hsome]

/-- A state in which the gradient of `v` was copied and counted. -/
def Reducer.count (cfg : Config n) (localGrad : Fin n → Option M) (v : Fin n) (s : Reducer n M) :
    Reducer n M :=
  { s with
    readyParams := insert v s.readyParams
    requireFinalize := true
    divFactor := some cfg.worldSize
    contents := Function.update s.contents v (scaled cfg localGrad v)
    grad := Function.update s.grad v (markedField cfg (localGrad v))
    replicaPending := fun i => cfg.assignment.unready (insert v s.readyParams) i
    bucketPending := fun i =>
      if i = cfg.assignment.locator v ∧ cfg.assignment.unready (insert v s.readyParams) i = 0
      then 0 else s.bucketPending i }

/-- Counting a parameter keeps the counters. -/
theorem Counted.count (h : Counted cfg localGrad s₀ hooked s) (hv : v ∉ s.readyParams) :
    Counted cfg localGrad s₀ hooked (s.count cfg localGrad v) := by
  have hmono : ∀ i, cfg.assignment.unready s.readyParams i = 0 →
      cfg.assignment.unready (insert v s.readyParams) i = 0 := by
    intro i hi
    rw [Assignment.unready_eq_zero] at hi ⊢
    exact fun w hw => Finset.mem_insert_of_mem (hi w hw)
  have hlocator : cfg.assignment.unready s.readyParams (cfg.assignment.locator v) ≠ 0 := by
    rw [cfg.assignment.unready_insert hv]
    exact Nat.succ_ne_zero _
  have hpending : ∀ i < cfg.assignment.buckets.length,
      (if i = cfg.assignment.locator v ∧ cfg.assignment.unready (insert v s.readyParams) i = 0
        then 0 else s.bucketPending i) =
      if cfg.assignment.unready (insert v s.readyParams) i = 0 then 0 else 1 := by
    intro i hi
    by_cases hlast : i = cfg.assignment.locator v ∧
        cfg.assignment.unready (insert v s.readyParams) i = 0
    · rw [if_pos hlast, if_pos hlast.2]
    · rw [if_neg hlast, h.pending i hi]
      by_cases heq : cfg.assignment.locator v = i
      · subst heq
        rw [if_neg hlocator, if_neg (fun hzero => hlast ⟨rfl, hzero⟩)]
      · rw [cfg.assignment.unready_insert_of_ne heq]
  refine ⟨h.expect, fun _ => rfl, .inr rfl, fun _ => rfl, hpending, h.next_lt,
    fun i hi => hmono i (h.launched i hi), h.future, h.callbacks, h.issued, h.used, h.reduced, ?_,
    ?_, ?_, h.noUnused⟩
  · intro w hw
    by_cases heq : w = v
    · subst heq
      exact update_self ..
    · exact (update_of_ne heq ..).trans (h.fields w (Finset.mem_of_mem_insert_of_ne hw heq))
  · intro w hw
    by_cases heq : w = v
    · subst heq
      exact update_self ..
    · exact (update_of_ne heq ..).trans (h.copied w (Finset.mem_of_mem_insert_of_ne hw heq))
  · intro hview w
    by_cases heq : w = v
    · subst heq
      simp only [Reducer.count, update_self, markedField, hview]
      cases localGrad w <;> simp
    · simp only [Reducer.count, update_of_ne heq]
      exact h.ownField hview w

theorem countDown_eq (h : Counted cfg localGrad s₀ hooked s)
    (hwaiting : cfg.assignment.unready s.readyParams s.nextBucket ≠ 0) (hv : v ∉ s.readyParams) :
    ∃ m, countDown cfg (cfg.assignment.locator v) { s with
          readyParams := insert v s.readyParams
          requireFinalize := true
          divFactor := some cfg.worldSize
          contents := update s.contents v (scaled cfg localGrad v)
          grad := update s.grad v (markedField cfg (localGrad v)) } =
        .ok ((s.count cfg localGrad v).launch m) ∧
      s.nextBucket + m ≤ cfg.assignment.buckets.length ∧
      (∀ i < m, cfg.assignment.unready (insert v s.readyParams) (s.nextBucket + i) = 0) ∧
      (s.nextBucket + m < cfg.assignment.buckets.length →
        cfg.assignment.unready (insert v s.readyParams) (s.nextBucket + m) ≠ 0) := by
  have hcounted := h.count hv
  have hinsert := cfg.assignment.unready_insert hv
  have hlt := cfg.assignment.locator_lt v
  have hreplica : update s.replicaPending (cfg.assignment.locator v)
      (decrement (s.replicaPending (cfg.assignment.locator v))) =
      fun i => cfg.assignment.unready (insert v s.readyParams) i := by
    funext i
    by_cases heq : i = cfg.assignment.locator v
    · subst heq
      rw [update_self, decrement, h.replica, hinsert, if_neg (Nat.succ_ne_zero _),
        Nat.add_sub_cancel]
    · rw [update_of_ne heq, h.replica, cfg.assignment.unready_insert_of_ne (Ne.symm heq)]
  have hpendingOne : s.bucketPending (cfg.assignment.locator v) = 1 := by
    rw [h.pending _ hlt, hinsert, if_neg (Nat.succ_ne_zero _)]
  have hle : s.nextBucket ≤ cfg.assignment.locator v := by
    by_contra hnot
    have hzero := h.launched (cfg.assignment.locator v) (by omega)
    omega
  unfold countDown
  simp only [hreplica]
  by_cases hlast : cfg.assignment.unready (insert v s.readyParams) (cfg.assignment.locator v) = 0
  · have hbucket : update s.bucketPending (cfg.assignment.locator v)
        (decrement (s.bucketPending (cfg.assignment.locator v))) =
        (s.count cfg localGrad v).bucketPending := by
      funext i
      simp only [Reducer.count]
      by_cases heq : i = cfg.assignment.locator v
      · subst heq
        rw [update_self, if_pos ⟨rfl, hlast⟩, hpendingOne]
        rfl
      · rw [update_of_ne heq, if_neg (fun hand => heq hand.1)]
    rw [if_pos hlast]
    simp only [hbucket]
    have hzero : (s.count cfg localGrad v).bucketPending (cfg.assignment.locator v) = 0 := by
      simp only [Reducer.count]
      rw [if_pos ⟨trivial, hlast⟩]
    rw [if_pos hzero]
    change ∃ m, markBucketReady cfg (cfg.assignment.locator v) (s.count cfg localGrad v) = _ ∧ _
    unfold markBucketReady
    have hnext : (s.count cfg localGrad v).nextBucket = s.nextBucket := rfl
    rw [hnext, if_neg (by omega)]
    by_cases hturn : s.nextBucket < cfg.assignment.locator v
    · rw [if_pos hturn]
      refine ⟨0, by rw [launch_zero], by omega, fun i hi => absurd hi (by omega), fun _ => ?_⟩
      rw [Nat.add_zero, cfg.assignment.unready_insert_of_ne (by omega)]
      exact hwaiting
    · rw [if_neg hturn]
      obtain ⟨m, hm, heq, hzeros, hstop⟩ := launchReady_eq cfg
        (cfg.assignment.buckets.length - s.nextBucket) (s.count cfg localGrad v)
        (by rw [hnext]; omega)
      have hstatus : ∀ i < cfg.assignment.buckets.length,
          (s.count cfg localGrad v).bucketPending i = 0 ↔
            cfg.assignment.unready (insert v s.readyParams) i = 0 := by
        intro i hi
        rw [hcounted.pending i hi]
        change (if cfg.assignment.unready (insert v s.readyParams) i = 0 then 0 else 1) = 0 ↔ _
        by_cases hz : cfg.assignment.unready (insert v s.readyParams) i = 0
        · simp [hz]
        · simp [hz]
      refine ⟨m, by rw [heq], by omega, fun i hi => ?_, fun hlt' => ?_⟩
      · exact (hstatus _ (by omega)).mp (hzeros i hi)
      · exact fun hz => hstop (by omega) ((hstatus _ hlt').mpr hz)
  · have hbucket : s.bucketPending = (s.count cfg localGrad v).bucketPending := by
      funext i
      have hnot : ¬ (i = cfg.assignment.locator v ∧
          cfg.assignment.unready (insert v s.readyParams) i = 0) := by
        rintro ⟨rfl, hzero⟩
        exact hlast hzero
      simp only [Reducer.count]
      rw [if_neg hnot]
    rw [if_neg hlast]
    refine ⟨0, ?_, by omega, fun i hi => absurd hi (by omega), fun _ => ?_⟩
    · rw [launch_zero, hbucket]
      rfl
    · rw [Nat.add_zero]
      by_cases heq : cfg.assignment.locator v = s.nextBucket
      · rw [← heq]
        exact hlast
      · rw [cfg.assignment.unready_insert_of_ne heq]
        exact hwaiting

/-- Marking one parameter ready keeps the pass in progress. -/
theorem Progress.markVariableReady (h : Progress cfg localGrad s₀ hooked s)
    (hv : v ∉ s.readyParams) (hvalue : s.value v = localGrad v) :
    ∃ s', markVariableReady cfg v s = .ok s' ∧ Progress cfg localGrad s₀ hooked s' ∧
      s'.readyParams = insert v s.readyParams ∧
      s'.hasMarkedUnusedParameters = s.hasMarkedUnusedParameters ∧
      ∀ w, w ≠ v → s'.value w = s.value w := by
  have hdiv : s.divFactor.getD cfg.worldSize = cfg.worldSize := by
    rcases h.divFactor with hd | hd <;> rw [hd] <;> rfl
  have hdense := markVariableReadyDense_eq cfg (s := { s with
      readyParams := insert v s.readyParams
      requireFinalize := true
      divFactor := some cfg.worldSize }) hvalue h.used (fun hview => h.ownField hview v)
  obtain ⟨m, hcount, hm, hzero, hstop⟩ :=
    countDown_eq (h.counted hv) (h.waiting (h.next_lt hv)) hv
  refine ⟨queueFinalize cfg ((s.count cfg localGrad v).launch m), ?_,
    ((h.counted hv).count hv).queueFinalize hzero hm hstop, ?_, ?_, ?_⟩
  · unfold Ddp.markVariableReady
    rw [if_neg hv]
    simp only [hdiv]
    rw [hdense]
    exact congrArg (Except.map _) hcount
  · unfold queueFinalize
    split
    · split <;> rfl
    · rfl
  · unfold queueFinalize
    split
    · split <;> rfl
    · rfl
  · intro w hw
    have hfield : ∀ t : Reducer n M, (queueFinalize cfg t).value w = t.value w := by
      intro t
      unfold queueFinalize
      split
      · split <;> rfl
      · rfl
    rw [hfield]
    simp only [value, launch, Reducer.count, update_of_ne hw]

/-- Marking several parameters ready, one after the other. -/
theorem Progress.markAllReady (vs : List (Fin n)) (h : Progress cfg localGrad s₀ hooked s)
    (hnodup : vs.Nodup) (hready : ∀ v ∈ vs, v ∉ s.readyParams)
    (hvalue : ∀ v ∈ vs, s.value v = localGrad v) :
    ∃ s', markAllReady cfg vs s = .ok s' ∧ Progress cfg localGrad s₀ hooked s' ∧
      s'.readyParams = s.readyParams ∪ vs.toFinset ∧
      s'.hasMarkedUnusedParameters = s.hasMarkedUnusedParameters ∧
      ∀ w ∉ vs, s'.value w = s.value w := by
  induction vs generalizing s with
  | nil => exact ⟨s, rfl, h, by simp, rfl, fun _ _ => rfl⟩
  | cons v vs ih =>
    obtain ⟨hv, hvs⟩ := nodup_cons.mp hnodup
    obtain ⟨s₁, hrun, h₁, hready₁, hmarked₁, hother⟩ :=
      h.markVariableReady (hready v mem_cons_self) (hvalue v mem_cons_self)
    obtain ⟨s₂, hrest, h₂, hready₂, hmarked₂, hother₂⟩ := ih h₁ hvs (by
        intro w hw
        rw [hready₁, Finset.mem_insert, not_or]
        exact ⟨fun heq => hv (heq ▸ hw), hready w (mem_cons_of_mem _ hw)⟩)
      (by
        intro w hw
        rw [hother w (fun heq => hv (heq ▸ hw))]
        exact hvalue w (mem_cons_of_mem _ hw))
    refine ⟨s₂, ?_, h₂, ?_, hmarked₂.trans hmarked₁, ?_⟩
    · rw [Ddp.markAllReady, hrun]
      exact hrest
    · rw [hready₂, hready₁, toFinset_cons, Finset.insert_union, Finset.union_insert]
    · intro w hw
      rw [mem_cons, not_or] at hw
      rw [hother₂ w hw.2, hother w hw.1]

/-- A gradient that comes in keeps the pass in progress. -/
theorem Progress.accumulate (h : Progress cfg localGrad s₀ hooked s) (hv : v ∉ s.readyParams)
    (g : Option M) : Progress cfg localGrad s₀ hooked (accumulate v g s) := by
  have hne : ∀ w ∈ s.readyParams, w ≠ v := fun w hw heq => hv (heq ▸ hw)
  cases g with
  | none => exact h
  | some g =>
    unfold Ddp.accumulate
    cases hgrad : s.grad v with
    | undefined =>
      refine ⟨h.expect, h.required, h.divFactor, h.replica, h.pending, h.next_le, h.launched,
        h.waiting, h.future, h.callbacks, h.issued, h.used, h.reduced, ?_, h.copied, ?_,
        h.noUnused⟩
      · exact fun w hw => (update_of_ne (hne w hw) ..).trans (h.fields w hw)
      · intro hview w
        by_cases heq : w = v
        · simp [heq]
        · simpa [heq] using h.ownField hview w
    | stored old =>
      refine ⟨h.expect, h.required, h.divFactor, h.replica, h.pending, h.next_le, h.launched,
        h.waiting, h.future, h.callbacks, h.issued, h.used, h.reduced, ?_, h.copied, ?_,
        h.noUnused⟩
      · exact fun w hw => (update_of_ne (hne w hw) ..).trans (h.fields w hw)
      · intro hview w
        by_cases heq : w = v
        · simp [heq]
        · simpa [heq] using h.ownField hview w
    | bucketView =>
      refine ⟨h.expect, h.required, h.divFactor, h.replica, h.pending, h.next_le, h.launched,
        h.waiting, h.future, h.callbacks, h.issued, h.used, h.reduced, h.fields, ?_, h.ownField,
        h.noUnused⟩
      exact fun w hw => (update_of_ne (hne w hw) ..).trans (h.copied w hw)

omit [Module ℚ M] in
theorem accumulate_readyParams (g : Option M) : (accumulate v g s).readyParams = s.readyParams ∧
      (accumulate v g s).hasMarkedUnusedParameters = s.hasMarkedUnusedParameters ∧
      (accumulate v g s).unusedParameters = s.unusedParameters := by
  cases g with
  | none => exact ⟨rfl, rfl, rfl⟩
  | some g =>
    unfold accumulate
    cases s.grad v <;> exact ⟨rfl, rfl, rfl⟩

omit [Module ℚ M] in
theorem value_accumulate_of_ne {w : Fin n} (hw : w ≠ v) (g : Option M) :
    (accumulate v g s).value w = s.value w := by
  cases g with
  | none => rfl
  | some g =>
    unfold accumulate value
    cases s.grad v <;> simp [update_of_ne hw]

/-- The used map at the start of a hook. -/
def Reducer.markUsed (cfg : Config n) (v : Fin n) (s : Reducer n M) : Reducer n M :=
  { s with
    localUsedMap := if cfg.findUnusedParameters ∧ (s.value v).isSome then
      Function.update s.localUsedMap v 1 else s.localUsedMap
    hasMarkedUnusedParameters := true }

omit [AddCommGroup M] [Module ℚ M] in
theorem markLocallyUsed_eq (cfg : Config n) (v : Fin n) (s : Reducer n M) :
    markLocallyUsed cfg v s = { s with
      localUsedMap := if cfg.findUnusedParameters ∧ (s.value v).isSome then
        update s.localUsedMap v 1 else s.localUsedMap } := by
  unfold markLocallyUsed value
  cases s.grad v <;> cases cfg.findUnusedParameters <;> simp

section

variable (h : Progress cfg localGrad s₀ hooked s) (hv : v ∉ s.readyParams) (hhooked : v ∉ hooked)
  (hvalue : s.value v = localGrad v)
include h hv hhooked hvalue

theorem Progress.markUsed :
    Progress cfg localGrad s₀ (insert v hooked) (s.markUsed cfg v) := by
  have hne : s.nextBucket ≠ cfg.assignment.buckets.length := (h.next_lt hv).ne
  have hused : (s.markUsed cfg v).localUsedMap = usedAfter cfg localGrad (insert v hooked) := by
    funext w
    simp only [Reducer.markUsed, h.used, hvalue]
    by_cases heq : w = v
    · subst heq
      by_cases hsome : cfg.findUnusedParameters ∧ (localGrad w).isSome
      · rw [if_pos hsome, update_self]
        simp [usedAfter, hsome]
      · rw [if_neg hsome]
        have hnot : ∀ hooked : Finset (Fin n), usedAfter cfg localGrad hooked w = 0 :=
          fun hooked => if_neg (fun hand => hsome ⟨hand.1, hand.2.2⟩)
        rw [hnot, hnot]
    · have hsame : usedAfter cfg localGrad (insert v hooked) w =
        usedAfter cfg localGrad hooked w := by
        simp [usedAfter, heq]
      rw [hsame]
      split
      · exact update_of_ne heq ..
      · rfl
  obtain ⟨log, hlog, hrequests, hcontributes⟩ := h.issued
  refine ⟨h.expect, h.required, h.divFactor, h.replica, h.pending, h.next_le, h.launched,
    h.waiting, h.future, h.callbacks, ⟨log, hlog, hrequests, ?_⟩, hused, h.reduced, h.fields,
    h.copied, h.ownField, h.noUnused⟩
  -- The used map has not been sent yet.
  intro c hc
  have hkept := hcontributes c hc
  cases c with
  | bucket i values => exact hkept
  | usedMap map =>
    have hmem : Request.usedMap ∈ log.map Collective.request := mem_map.mpr ⟨_, hc, rfl⟩
    rw [hrequests, if_neg hne, schedule_take h.next_le] at hmem
    simp at hmem

/-- A hook marks its parameter, and the first one also the unused ones. -/
theorem Progress.autogradHook (unused : List (Fin n))
    (hunused : unused = if s.hasMarkedUnusedParameters then [] else s.unusedParameters)
    (hnodup : unused.Nodup) (hnot : v ∉ unused) (hready : ∀ w ∈ unused, w ∉ s.readyParams)
    (hvalues : ∀ w ∈ unused, s.value w = localGrad w) :
    ∃ s', autogradHook cfg v s = .ok s' ∧ Progress cfg localGrad s₀ (insert v hooked) s' ∧
      s'.readyParams = insert v (s.readyParams ∪ unused.toFinset) ∧
      s'.hasMarkedUnusedParameters = true ∧ ∀ w ∉ unused, w ≠ v → s'.value w = s.value w := by
  obtain ⟨s₁, hrun₁, h₁, hready₁, hmarked₁, hother₁⟩ :=
    (h.markUsed hv hhooked hvalue).markAllReady unused hnodup hready hvalues
  have hv₁ : v ∉ s₁.readyParams := by
    rw [hready₁, Finset.mem_union, mem_toFinset, not_or]
    exact ⟨hv, hnot⟩
  obtain ⟨s₂, hrun₂, h₂, hready₂, hmarked₂, hother₂⟩ :=
    h₁.markVariableReady hv₁ ((hother₁ v hnot).trans hvalue)
  refine ⟨s₂, ?_, h₂, ?_, hmarked₂.trans hmarked₁, fun w hw hne => ?_⟩
  · unfold Ddp.autogradHook
    rw [if_pos h.expect]
    rw [markLocallyUsed_eq]
    simp only [← hunused]
    change (Ddp.markAllReady cfg unused (s.markUsed cfg v)).bind _ = _
    rw [hrun₁]
    exact hrun₂
  · rw [hready₂, hready₁]
    rfl
  · rw [hother₂ w hne, hother₁ w hw]
    rfl

end

/-- A pass, for every order of its hooks.  The parameters that are not used are marked
by the first hook. -/
theorem Progress.backward (hooks : List (Fin n × Option M))
    (h : Progress cfg localGrad s₀ hooked s) (unused : List (Fin n))
    (hunused : unused = if s.hasMarkedUnusedParameters then [] else s.unusedParameters)
    (hnodup : unused.Nodup) (hready : ∀ w ∈ unused, w ∉ s.readyParams)
    (hvalues : ∀ w ∈ unused, s.value w = localGrad w)
    (hnodupHooks : (hooks.map Prod.fst).Nodup) (hdisjoint : ∀ p ∈ hooks, p.1 ∉ unused)
    (hreadyHooks : ∀ p ∈ hooks, p.1 ∉ s.readyParams) (hhooked : ∀ p ∈ hooks, p.1 ∉ hooked)
    (hvaluesHooks : ∀ p ∈ hooks, addGrad (s.value p.1) p.2 = localGrad p.1) :
    ∃ s', backward cfg hooks s = .ok s' ∧
      Progress cfg localGrad s₀ (hooked ∪ (hooks.map Prod.fst).toFinset) s' ∧
      (hooks ≠ [] → s'.readyParams =
        s.readyParams ∪ unused.toFinset ∪ (hooks.map Prod.fst).toFinset) := by
  induction hooks generalizing s hooked unused with
  | nil => exact ⟨s, rfl, by simpa using h, fun hnil => absurd rfl hnil⟩
  | cons p hooks ih =>
    obtain ⟨v, g⟩ := p
    simp only [map_cons, nodup_cons] at hnodupHooks
    have hv : v ∉ s.readyParams := hreadyHooks (v, g) mem_cons_self
    have hvUnused : v ∉ unused := hdisjoint (v, g) mem_cons_self
    obtain ⟨hreadyEq, hmarkedEq, hunusedEq⟩ := accumulate_readyParams (s := s) (v := v) g
    obtain ⟨s₁, hrun, h₁, hready₁, hmarked₁, hother⟩ :=
      (h.accumulate hv g).autogradHook (by rw [hreadyEq]; exact hv) (hhooked (v, g) mem_cons_self)
        (by rw [value_accumulate]; exact hvaluesHooks (v, g) mem_cons_self) unused
        (by rw [hmarkedEq, hunusedEq]; exact hunused) hnodup
        hvUnused (by rw [hreadyEq]; exact hready)
        (by
          intro w hw
          rw [value_accumulate_of_ne (ne_of_mem_of_not_mem hw hvUnused)]
          exact hvalues w hw)
    have hne : ∀ q ∈ hooks, q.1 ≠ v :=
      fun q hq heq => hnodupHooks.1 (mem_map.mpr ⟨q, hq, heq⟩)
    obtain ⟨s₂, hrest, h₂, hready₂⟩ := ih h₁ [] (by rw [hmarked₁]; rfl) nodup_nil
      (fun w hw => absurd hw not_mem_nil) (fun w hw => absurd hw not_mem_nil)
      hnodupHooks.2 (fun q _ => not_mem_nil)
      (by
        intro q hq
        rw [hready₁, hreadyEq]
        simp only [Finset.mem_insert, Finset.mem_union, mem_toFinset, not_or]
        exact ⟨hne q hq, hreadyHooks q (mem_cons_of_mem _ hq), hdisjoint q (mem_cons_of_mem _ hq)⟩)
      (by
        intro q hq
        rw [Finset.mem_insert, not_or]
        exact ⟨hne q hq, hhooked q (mem_cons_of_mem _ hq)⟩)
      (by
        intro q hq
        rw [hother q.1 (hdisjoint q (mem_cons_of_mem _ hq)) (hne q hq),
          value_accumulate_of_ne (hne q hq)]
        exact hvaluesHooks q (mem_cons_of_mem _ hq))
    refine ⟨s₂, ?_, ?_, fun _ => ?_⟩
    · rw [Ddp.backward, hrun]
      exact hrest
    · rw [map_cons, toFinset_cons, Finset.union_insert, ← Finset.insert_union]
      exact h₂
    · by_cases hnil : hooks = []
      · subst hnil
        cases hrest
        rw [hready₁, hreadyEq]
        ext w
        simp
      · rw [hready₂ hnil, hready₁, hreadyEq]
        ext w
        simp only [toFinset_nil, Finset.union_empty, Finset.mem_union, Finset.mem_insert,
          mem_toFinset, map_cons, mem_cons]
        tauto

end Progress

end PyTorchCore.Ddp
