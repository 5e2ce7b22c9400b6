import PyTorchCore.StaticRuntime.ManagedTensorRanges

/-!
# Storage groups of managed tensors

`assignStorageToManagedTensors` takes a storage group for every managed output of a node, the most
recently freed one if there is any and a new one otherwise, and only then gives back the groups of
the tensors that are free after the node.
-/

namespace PyTorchCore.StaticRuntime

open Option Function List

/-- A node of the runtime with its output slots: `isTensor k` says whether the
`IValue` of output `k` holds a tensor. -/
structure ProcessedNode (V : Type) where
  node : Node V
  isTensor : Nat → Bool

/-- The managed values: outputs of nodes, of a mutable type. -/
structure ManagedTensors {V : Type} (db : AliasDb V) (g : Graph V) where
  values : List V
  nodup : values.Nodup
  isOutput : ∀ v ∈ values, v ∈ g.nodes.flatMap Node.outputs
  isMutable : ∀ v ∈ values, db.isMutableType v = true

/-- The local variables of `assignStorageToManagedTensors`. The back of `free_storage_groups` is the
head of the list. -/
structure Planner (V : Type) (T : Type) where
  managed_tensor_groups : List (List T)
  storage_group_mapping : V → Option Nat
  free_storage_groups : List Nat

section Defs

variable {V : Type} {T : Type} [DecidableEq V]

/-- `FastMap::emplace`: an entry that is there stays. -/
def emplace {B : Type} (m : V → Option B) (key : V) (b : B) : V → Option B :=
  match m key with
  | some _ => m
  | none => Function.update m key (some b)

/-- The output slots of one node, from output `k` on; a tensor pointer is the
place of its slot. -/
def slotsOf (managed : List V) (i : Nat) (isTensor : Nat → Bool) (k : Nat)
    (m : V → Option (Nat × Nat)) : List V → V → Option (Nat × Nat)
  | [] => m
  | output :: outputs =>
    slotsOf managed i isTensor (k + 1)
      (if output ∈ managed ∧ isTensor k = true then emplace m output (i, k) else m) outputs

/-- The nodes from position `i` on. -/
def slotsFrom (managed : List V) (i : Nat) (m : V → Option (Nat × Nat)) :
    List (ProcessedNode V) → V → Option (Nat × Nat)
  | [] => m
  | pnode :: nodes =>
    slotsFrom managed (i + 1) (slotsOf managed i pnode.isTensor 0 m pnode.node.outputs) nodes

def tensorValueToTensor (nodes : List (ProcessedNode V)) (managed : List V) :
    V → Option (Nat × Nat) :=
  slotsFrom managed 0 (fun _ => none) nodes

variable (tensor_value_to_tensor : V → Option T)

def makeNewStorageGroup (s : Planner V T) (value : V) : Option (Planner V T) := do
  let storage_group := s.managed_tensor_groups.length
  let tensor_ptr ← tensor_value_to_tensor value
  return { s with
    storage_group_mapping := emplace s.storage_group_mapping value storage_group
    managed_tensor_groups := s.managed_tensor_groups ++ [[tensor_ptr]] }

def assignToAvailableStorageGroup (s : Planner V T) (value : V) : Option (Planner V T) :=
  match s.free_storage_groups with
  | [] => none
  | storage_group :: rest => do
    let tensor_ptr ← tensor_value_to_tensor value
    let group ← s.managed_tensor_groups[storage_group]?
    return {
      storage_group_mapping := emplace s.storage_group_mapping value storage_group
      managed_tensor_groups := s.managed_tensor_groups.set storage_group (group ++ [tensor_ptr])
      free_storage_groups := rest }

/-- A storage group for one output. -/
def assignOutput (s : Planner V T) (output : V) : Option (Planner V T) :=
  if (tensor_value_to_tensor output).isNone then some s
  else if s.free_storage_groups.isEmpty then makeNewStorageGroup tensor_value_to_tensor s output
  else assignToAvailableStorageGroup tensor_value_to_tensor s output

/-- The storage group of one tensor is free again.  `none` is the exception of
`storage_group_mapping.at`. -/
def freeTensor (s : Planner V T) (tensor_value : V) : Option (Planner V T) :=
  if (tensor_value_to_tensor tensor_value).isNone then some s
  else do
    let storage_group ← s.storage_group_mapping tensor_value
    return { s with free_storage_groups := storage_group :: s.free_storage_groups }

/-- The nodes from position `i` on, where `ranges` are the free lists. -/
def planNodes (ranges : Nat → List V) (i : Nat) (s : Planner V T) :
    List (Node V) → Option (Planner V T)
  | [] => some s
  | node :: nodes => do
    let s ← node.outputs.foldlM (assignOutput tensor_value_to_tensor) s
    let s ← (ranges i).foldlM (freeTensor tensor_value_to_tensor) s
    planNodes ranges (i + 1) s nodes

def assignStorageToManagedTensors (nodes : List (Node V)) (ranges : Nat → List V) :
    Option (List (List T)) :=
  (planNodes tensor_value_to_tensor ranges 0 ⟨[], fun _ => none, []⟩ nodes).map
    Planner.managed_tensor_groups

end Defs

section Slots

variable {V : Type} [DecidableEq V] {B : Type} {m : V → Option B}

theorem emplace_of_none {key : V} (h : m key = none) (b : B) :
    emplace m key b = update m key (some b) := by
  simp [emplace, h]

theorem emplace_cases {key v : V} {b c : B}
    (h : emplace m key b v = some c) : m v = some c ∨ (v = key ∧ c = b) := by
  unfold emplace at h
  cases hk : m key with
  | some x =>
    rw [hk] at h
    exact .inl h
  | none =>
    rw [hk] at h
    by_cases hv : v = key
    · subst hv
      simp only [update_self, Option.some.injEq] at h
      exact .inr ⟨rfl, h.symm⟩
    · simp only [update_of_ne hv] at h
      exact .inl h

theorem emplace_isSome (m : V → Option B) (key v : V) (b : B) :
    (emplace m key b v).isSome = ((m v).isSome || decide (v = key)) := by
  unfold emplace
  by_cases hv : v = key
  · subst hv
    cases hk : m v <;> simp [hk]
  · cases m key <;> simp [hv]

/-- A tensor pointer is the place of the slot of its value. -/
def PointsToSlot (nodes : List (ProcessedNode V)) (managed : List V)
    (m : V → Option (Nat × Nat)) : Prop :=
  ∀ v i k, m v = some (i, k) → v ∈ managed ∧
    ∃ pnode, nodes[i]? = some pnode ∧ pnode.node.outputs[k]? = some v

variable {nodes : List (ProcessedNode V)}

theorem slotsOf_pointsToSlot {managed : List V} {i : Nat}
    {pnode : ProcessedNode V} (hi : nodes[i]? = some pnode) (outputs : List V) :
    ∀ {k : Nat} {m : V → Option (Nat × Nat)}, pnode.node.outputs.drop k = outputs →
      PointsToSlot nodes managed m →
      PointsToSlot nodes managed (slotsOf managed i pnode.isTensor k m outputs) := by
  induction outputs with
  | nil => exact fun _ h => h
  | cons output outputs ih =>
    intro k m hdrop h
    have hk : pnode.node.outputs[k]? = some output := by
      rw [← head?_drop, hdrop]
      rfl
    refine ih (k := k + 1) ?_ ?_
    · rw [← drop_drop, hdrop, drop_succ_cons, drop_zero]
    · split
      · next hcond =>
          intro v i' k' hv
          rcases emplace_cases hv with hv | ⟨rfl, heq⟩
          · exact h v i' k' hv
          · cases heq
            exact ⟨hcond.1, pnode, hi, hk⟩
      · exact h

theorem slotsFrom_pointsToSlot {managed : List V} (nodes : List (ProcessedNode V)) :
    ∀ {before : List (ProcessedNode V)} {m : V → Option (Nat × Nat)},
      PointsToSlot (before ++ nodes) managed m →
      PointsToSlot (before ++ nodes) managed (slotsFrom managed before.length m nodes) := by
  induction nodes with
  | nil => exact fun h => h
  | cons pnode nodes ih =>
    intro before m h
    have hi : (before ++ pnode :: nodes)[before.length]? = some pnode := by simp
    have hstep : PointsToSlot (before ++ pnode :: nodes) managed
        (slotsOf managed before.length pnode.isTensor 0 m pnode.node.outputs) :=
      slotsOf_pointsToSlot hi pnode.node.outputs rfl h
    have hassoc : before ++ pnode :: nodes = (before ++ [pnode]) ++ nodes := by simp
    rw [hassoc] at hstep ⊢
    have hnext := ih hstep
    rw [length_append] at hnext
    exact hnext

theorem tensorValueToTensor_pointsToSlot (nodes : List (ProcessedNode V)) (managed : List V) :
    PointsToSlot nodes managed (tensorValueToTensor nodes managed) := by
  have hempty : PointsToSlot ([] ++ nodes) managed fun _ => none := by
    intro v i k hv
    cases hv
  exact slotsFrom_pointsToSlot nodes hempty

variable {managed : List V}

omit [DecidableEq V] in
theorem PointsToSlot.injective
    {m : V → Option (Nat × Nat)} (h : PointsToSlot nodes managed m) {v w : V} {t : Nat × Nat}
    (hv : m v = some t) (hw : m w = some t) : v = w := by
  obtain ⟨-, pnode, hp, hk⟩ := h v t.1 t.2 hv
  obtain ⟨-, pnode', hp', hk'⟩ := h w t.1 t.2 hw
  rw [hp, Option.some.injEq] at hp'
  subst hp'
  rw [hk, Option.some.injEq] at hk'
  exact hk'

theorem slotsOf_isSome {i : Nat} {isTensor : Nat → Bool} (outputs : List V) :
    ∀ {k : Nat} {m : V → Option (Nat × Nat)} {v : V},
      (slotsOf managed i isTensor k m outputs v).isSome ↔
        (m v).isSome ∨ ∃ j, outputs[j]? = some v ∧ v ∈ managed ∧ isTensor (k + j) = true := by
  induction outputs with
  | nil => simp [slotsOf]
  | cons output outputs ih =>
    intro k m v
    rw [slotsOf, ih]
    constructor
    · rintro (h | ⟨j, hj, hm, ht⟩)
      · by_cases hcond : output ∈ managed ∧ isTensor k = true
        · rw [if_pos hcond, emplace_isSome, Bool.or_eq_true, decide_eq_true_eq] at h
          rcases h with h | rfl
          · exact .inl h
          · exact .inr ⟨0, rfl, hcond.1, hcond.2⟩
        · rw [if_neg hcond] at h
          exact .inl h
      · exact .inr ⟨j + 1, hj, hm, by rw [← Nat.add_assoc, Nat.add_right_comm]; exact ht⟩
    · rintro (h | ⟨j, hj, hm, ht⟩)
      · left
        split
        · rw [emplace_isSome, h]
          rfl
        · exact h
      · cases j with
        | zero =>
          left
          obtain rfl : output = v := by simpa using hj
          rw [if_pos ⟨hm, ht⟩, emplace_isSome]
          simp
        | succ j =>
          right
          exact ⟨j, hj, hm, by rw [Nat.add_right_comm, Nat.add_assoc]; exact ht⟩

theorem slotsFrom_isSome (nodes : List (ProcessedNode V)) :
    ∀ {i : Nat} {m : V → Option (Nat × Nat)} {v : V}, (slotsFrom managed i m nodes v).isSome ↔
        (m v).isSome ∨ v ∈ managed ∧ ∃ pnode ∈ nodes, ∃ j,
          pnode.node.outputs[j]? = some v ∧ pnode.isTensor j = true := by
  induction nodes with
  | nil => simp [slotsFrom]
  | cons pnode nodes ih =>
    intro i m v
    rw [slotsFrom, ih, slotsOf_isSome]
    constructor
    · rintro ((h | ⟨j, hj, hm, ht⟩) | ⟨hm, pnode', hp, j, hj, ht⟩)
      · exact .inl h
      · exact .inr ⟨hm, pnode, by simp, j, hj, by simpa using ht⟩
      · exact .inr ⟨hm, pnode', mem_cons_of_mem _ hp, j, hj, ht⟩
    · rintro (h | ⟨hm, pnode', hp, j, hj, ht⟩)
      · exact .inl (.inl h)
      · rcases mem_cons.mp hp with rfl | hp
        · exact .inl (.inr ⟨j, hj, hm, by simpa using ht⟩)
        · exact .inr ⟨hm, pnode', hp, j, hj, ht⟩

end Slots

/-- Where a value is defined. -/
def birth {V : Type} (L : Lifetimes V) (v : V) : Nat :=
  (L v).elim 0 Lifetime.start

/-- What holds of the planner once the outputs `done` have their groups, where
every value in a free group is `dead`. -/
structure Planned {V T : Type} (tv : V → Option T) (L : Lifetimes V) (done : List V)
    (dead : V → Prop) (s : Planner V T) : Prop where
  mapped : ∀ v, (s.storage_group_mapping v).isSome ↔ v ∈ done ∧ (tv v).isSome
  inRange : ∀ v k, s.storage_group_mapping v = some k → k < s.managed_tensor_groups.length
  content : ∀ k t, (∃ group, s.managed_tensor_groups[k]? = some group ∧ t ∈ group) ↔
    ∃ v, s.storage_group_mapping v = some k ∧ tv v = some t
  freeInRange : ∀ k ∈ s.free_storage_groups, k < s.managed_tensor_groups.length
  freeNodup : s.free_storage_groups.Nodup
  freeDead : ∀ k ∈ s.free_storage_groups, ∀ v, s.storage_group_mapping v = some k → dead v
  /-- The values of a group have lifetimes that do not overlap. -/
  apart : ∀ v w k, v ≠ w → s.storage_group_mapping v = some k →
    s.storage_group_mapping w = some k → reach L v < birth L w ∨ reach L w < birth L v

namespace Planned

variable {V T : Type} [DecidableEq V] {tv : V → Option T} {L : Lifetimes V} {done : List V}
variable {dead : V → Prop} {s : Planner V T}

section

omit [DecidableEq V]

/-- Nothing is planned yet. -/
theorem start : Planned tv L [] dead ⟨[], fun _ => none, []⟩ := by
  constructor <;> simp

theorem mono (h : Planned tv L done dead s) {dead' : V → Prop} (hd : ∀ v, dead v → dead' v) :
    Planned tv L done dead' s :=
  { h with freeDead := fun k hk v hv => hd v (h.freeDead k hk v hv) }

theorem congr_done (h : Planned tv L done dead s) {done' : List V}
    (hd : ∀ v, (tv v).isSome → (v ∈ done' ↔ v ∈ done)) : Planned tv L done' dead s where
  mapped v := by
    rw [h.mapped v]
    exact ⟨fun hv => ⟨(hd v hv.2).mpr hv.1, hv.2⟩, fun hv => ⟨(hd v hv.2).mp hv.1, hv.2⟩⟩
  inRange := h.inRange
  content := h.content
  freeInRange := h.freeInRange
  freeNodup := h.freeNodup
  freeDead := h.freeDead
  apart := h.apart

end

/-- A value is assigned to a group. -/
theorem assign (h : Planned tv L done dead s) {value : V} {t : T} (ht : tv value = some t)
    (hnew : value ∉ done) {k : Nat} {s' : Planner V T}
    (hmap : s'.storage_group_mapping = emplace s.storage_group_mapping value k)
    (hlen : s.managed_tensor_groups.length ≤ s'.managed_tensor_groups.length)
    (hk : k < s'.managed_tensor_groups.length)
    (hgroups : ∀ j t', (∃ group, s'.managed_tensor_groups[j]? = some group ∧ t' ∈ group) ↔
      (∃ group, s.managed_tensor_groups[j]? = some group ∧ t' ∈ group) ∨ (j = k ∧ t' = t))
    (hfree : ∀ j ∈ s'.free_storage_groups, j ∈ s.free_storage_groups)
    (hnodup : s'.free_storage_groups.Nodup) (hknot : k ∉ s'.free_storage_groups)
    (hold : ∀ w, s.storage_group_mapping w = some k → reach L w < birth L value) :
    Planned tv L (value :: done) dead s' := by
  have hnone : s.storage_group_mapping value = none := by
    by_contra hc
    exact hnew ((h.mapped value).mp (isSome_iff_ne_none.mpr hc)).1
  -- the mapping changes at `value` only
  have hself : s'.storage_group_mapping value = some k := by
    rw [hmap, emplace_of_none hnone, update_self]
  have hother : ∀ w, w ≠ value → s'.storage_group_mapping w = s.storage_group_mapping w := by
    intro w hw
    rw [hmap, emplace_of_none hnone, update_of_ne hw]
  constructor
  · intro v
    rw [hmap, emplace_isSome, Bool.or_eq_true, decide_eq_true_eq, h.mapped, mem_cons]
    constructor
    · rintro (⟨hv, hs⟩ | rfl)
      · exact ⟨.inr hv, hs⟩
      · exact ⟨.inl rfl, by rw [ht]; rfl⟩
    · rintro ⟨rfl | hv, hs⟩
      · exact .inr rfl
      · exact .inl ⟨hv, hs⟩
  · intro v j hv
    by_cases hval : v = value
    · subst hval
      rw [hself, Option.some.injEq] at hv
      exact hv ▸ hk
    · rw [hother v hval] at hv
      exact Nat.lt_of_lt_of_le (h.inRange v j hv) hlen
  · intro j t'
    rw [hgroups, h.content]
    constructor
    · rintro (⟨v, hv, htv⟩ | ⟨rfl, rfl⟩)
      · refine ⟨v, ?_, htv⟩
        rw [hother v (fun hc => by rw [hc, hnone] at hv; cases hv)]
        exact hv
      · exact ⟨value, hself, ht⟩
    · rintro ⟨v, hv, htv⟩
      by_cases hval : v = value
      · subst hval
        rw [hself, Option.some.injEq] at hv
        rw [ht, Option.some.injEq] at htv
        exact .inr ⟨hv.symm, htv.symm⟩
      · rw [hother v hval] at hv
        exact .inl ⟨v, hv, htv⟩
  · exact fun j hj => Nat.lt_of_lt_of_le (h.freeInRange j (hfree j hj)) hlen
  · exact hnodup
  · intro j hj v hv
    by_cases hval : v = value
    · subst hval
      rw [hself, Option.some.injEq] at hv
      exact absurd (hv ▸ hj) hknot
    · rw [hother v hval] at hv
      exact h.freeDead j (hfree j hj) v hv
  · intro v w j hne hv hw
    by_cases hval : v = value
    · subst hval
      rw [hself, Option.some.injEq] at hv
      rw [hother w (Ne.symm hne), ← hv] at hw
      exact .inr (hold w hw)
    · rw [hother v hval] at hv
      by_cases hval' : w = value
      · subst hval'
        rw [hself, Option.some.injEq] at hw
        rw [← hw] at hv
        exact .inl (hold v hv)
      · rw [hother w hval'] at hw
        exact h.apart v w j hne hv hw

/-- One output.  It may reuse any free group, since it is born after every dead
value. -/
theorem assignOutput (h : Planned tv L done dead s) {output : V} (hnew : output ∉ done)
    (hdead : (tv output).isSome → ∀ w, dead w → reach L w < birth L output) :
    ∃ s', StaticRuntime.assignOutput tv s output = some s' ∧
      Planned tv L (output :: done) dead s' := by
  unfold StaticRuntime.assignOutput
  cases ht : tv output with
  | none =>
    refine ⟨s, by simp, h.congr_done ?_⟩
    intro v hv
    have hne : v ≠ output := by
      rintro rfl
      rw [ht] at hv
      cases hv
    simp [hne]
  | some t =>
    cases hfree : s.free_storage_groups with
    | nil =>
      have hstep : makeNewStorageGroup tv s output = some { s with
            storage_group_mapping :=
              emplace s.storage_group_mapping output s.managed_tensor_groups.length
            managed_tensor_groups := s.managed_tensor_groups ++ [[t]] } := by
        simp [makeNewStorageGroup, ht]
      refine ⟨_, hstep, ?_⟩
      refine h.assign ht hnew rfl (by simp) (by simp) ?_ (fun j hj => hj) h.freeNodup
        (by simp [hfree]) ?_
      · intro j t'
        rcases Nat.lt_trichotomy j s.managed_tensor_groups.length with hj | rfl | hj
        · rw [getElem?_append_left hj]
          simp [Nat.ne_of_lt hj]
        · simp
        · have h₁ : s.managed_tensor_groups[j]? = none :=
            getElem?_eq_none (Nat.le_of_lt hj)
          have h₂ : (s.managed_tensor_groups ++ [[t]])[j]? = none :=
            getElem?_eq_none (by simp; omega)
          simp [h₁, h₂, Nat.ne_of_gt hj]
      · intro w hw
        exact absurd (h.inRange w _ hw) (Nat.lt_irrefl _)
    | cons k rest =>
      have hmem : k ∈ s.free_storage_groups := by simp [hfree]
      have hk := h.freeInRange k hmem
      have hnodup := h.freeNodup
      rw [hfree, nodup_cons] at hnodup
      have hstep : assignToAvailableStorageGroup tv s output = some
          { storage_group_mapping := emplace s.storage_group_mapping output k
            managed_tensor_groups :=
              s.managed_tensor_groups.set k (s.managed_tensor_groups[k] ++ [t])
            free_storage_groups := rest } := by
        simp [assignToAvailableStorageGroup, hfree, ht, getElem?_eq_getElem hk]
      refine ⟨_, hstep, ?_⟩
      refine h.assign ht hnew rfl (by simp) (by simpa using hk) ?_ ?_ hnodup.2 hnodup.1 ?_
      · intro j t'
        by_cases hj : k = j
        · subst hj
          simp [hk]
        · simp [getElem?_set_ne hj, Ne.symm hj]
      · intro j hj
        simp [hfree, hj]
      · intro w hw
        exact hdead (by rw [ht]; rfl) w (h.freeDead k hmem w hw)

theorem assignOutputs (outputs : List V) :
    ∀ {done : List V} {s : Planner V T}, Planned tv L done dead s → outputs.Nodup →
      (∀ v ∈ outputs, v ∉ done) →
        (∀ v ∈ outputs, (tv v).isSome → ∀ w, dead w → reach L w < birth L v) →
      ∃ s', outputs.foldlM (StaticRuntime.assignOutput tv) s = some s' ∧
        Planned tv L (outputs.reverse ++ done) dead s' := by
  induction outputs with
  | nil => exact fun h _ _ _ => ⟨_, rfl, h⟩
  | cons output outputs ih =>
    intro done s h hnodup hnew hdead
    rw [nodup_cons] at hnodup
    obtain ⟨s₁, hs₁, h₁⟩ := h.assignOutput (hnew output (by simp)) (hdead output (by simp))
    have hrest : ∀ v ∈ outputs, v ∉ output :: done := by
      intro v hv hd
      rcases mem_cons.mp hd with rfl | hd
      · exact hnodup.1 hv
      · exact hnew v (mem_cons_of_mem _ hv) hd
    obtain ⟨s₂, hs₂, h₂⟩ := ih h₁ hnodup.2 hrest (fun v hv => hdead v (mem_cons_of_mem _ hv))
    refine ⟨s₂, by rw [foldlM_cons, hs₁]; exact hs₂, ?_⟩
    simpa using h₂

omit [DecidableEq V] in
theorem freeTensor (h : Planned tv L done dead s) {v : V} {i : Nat} (hdone : v ∈ done)
    (hborn : ∀ w ∈ done, birth L w ≤ i) (hend : reach L v = i) (hnot : ¬dead v)
    (hdead : ∀ w, reach L w < i → dead w) :
    ∃ s', StaticRuntime.freeTensor tv s v = some s' ∧
      Planned tv L done (fun w => dead w ∨ w = v) s' := by
  unfold StaticRuntime.freeTensor
  cases ht : tv v with
  | none => exact ⟨s, by simp, h.mono fun w hw => .inl hw⟩
  | some t =>
    have hsome := (h.mapped v).mpr ⟨hdone, by rw [ht]; rfl⟩
    obtain ⟨k, hk⟩ := isSome_iff_exists.mp hsome
    refine ⟨{ s with free_storage_groups := k :: s.free_storage_groups }, by simp [hk], ?_⟩
    have hknot : k ∉ s.free_storage_groups := fun hc => hnot (h.freeDead k hc v hk)
    refine ⟨h.mapped, h.inRange, h.content, ?_, nodup_cons.mpr ⟨hknot, h.freeNodup⟩, ?_, h.apart⟩
    · intro j hj
      rcases mem_cons.mp hj with rfl | hj
      · exact h.inRange v j hk
      · exact h.freeInRange j hj
    · intro j hj w hw
      rcases mem_cons.mp hj with rfl | hj
      · by_cases hwv : w = v
        · exact .inr hwv
        · -- the other values of the group were dead before `v` was born
          left
          have hwdone := ((h.mapped w).mp (by rw [hw]; rfl)).1
          have h₁ := hborn w hwdone
          have h₂ := hborn v hdone
          rcases h.apart w v j hwv hw hk with hlt | hlt
          · exact hdead w (by omega)
          · omega
      · exact .inl (h.freeDead j hj w hw)

omit [DecidableEq V] in
theorem freeTensors {i : Nat} (freed : List V) :
    ∀ {dead : V → Prop} {s : Planner V T}, Planned tv L done dead s → freed.Nodup →
      (∀ w ∈ done, birth L w ≤ i) → (∀ w, reach L w < i → dead w) →
      (∀ v ∈ freed, v ∈ done ∧ reach L v = i ∧ ¬dead v) →
      ∃ s', freed.foldlM (StaticRuntime.freeTensor tv) s = some s' ∧
        Planned tv L done (fun w => dead w ∨ w ∈ freed) s' := by
  induction freed with
  | nil => exact fun h _ _ _ _ => ⟨_, rfl, h.mono fun w hw => .inl hw⟩
  | cons v freed ih =>
    intro dead s h hnodup hborn hdead hfreed
    rw [nodup_cons] at hnodup
    obtain ⟨hdone, hend, hnot⟩ := hfreed v (by simp)
    obtain ⟨s₁, hs₁, h₁⟩ := h.freeTensor hdone hborn hend hnot hdead
    obtain ⟨s₂, hs₂, h₂⟩ := ih h₁ hnodup.2 hborn (fun w hw => .inl (hdead w hw)) (by
      intro w hw
      obtain ⟨hd, he, hn⟩ := hfreed w (mem_cons_of_mem _ hw)
      refine ⟨hd, he, ?_⟩
      rintro (hc | rfl)
      · exact hn hc
      · exact hnodup.1 hw)
    refine ⟨s₂, by rw [foldlM_cons, hs₁]; exact hs₂, h₂.mono ?_⟩
    rintro w ((hw | rfl) | hw)
    · exact .inl hw
    · exact .inr (by simp)
    · exact .inr (mem_cons_of_mem _ hw)

end Planned

section Run

variable {V T : Type} [DecidableEq V] (db : AliasDb V) (g : Graph V) (managed : ManagedTensors db g)
  {v : V}

theorem ManagedTensors.tracked (hv : v ∈ managed.values) : (lifetimes db g v).isSome :=
  lifetimes_tracked db g (managed.isMutable v hv) (managed.isOutput v hv)

omit [DecidableEq V] in
theorem foldlM_fileFreed {L : Lifetimes V} (values : List V) :
    ∀ (free : Nat → List V), (∀ v ∈ values, (L v).isSome) → values.foldlM (fileFreed L) free =
        some fun i => free i ++ values.filter fun v => decide (reach L v = i) := by
  induction values with
  | nil =>
    intro free _
    simp
  | cons v values ih =>
    intro free h
    obtain ⟨l, hl⟩ := isSome_iff_exists.mp (h v (by simp))
    have hreach : reach L v = l.end_ := by simp [reach, hl]
    rw [foldlM_cons, fileFreed, hl]
    simp only [map_some, bind_eq_bind, bind_some]
    rw [ih _ fun w hw => h w (mem_cons_of_mem _ hw)]
    congr 1
    funext i
    by_cases hi : i = l.end_
    · subst hi
      simp [hreach]
    · have hne : ¬reach L v = i := by
        rw [hreach]
        exact fun hc => hi hc.symm
      simp [hi, hne]

theorem managedTensorRanges_eq : managedTensorRanges db g managed.values = some fun i =>
      managed.values.filter fun v => decide (reach (lifetimes db g) v = i) := by
  have h := foldlM_fileFreed (L := lifetimes db g) managed.values (fun _ => [])
    fun v hv => managed.tracked db g hv
  simpa [managedTensorRanges] using h

variable {before after : List (Node V)}

theorem birth_eq {node : Node V}
    (hsplit : g.nodes = before ++ node :: after) (hv : v ∈ node.outputs)
    (ht : (lifetimes db g v).isSome) : birth (lifetimes db g) v = before.length := by
  obtain ⟨l, hl⟩ := isSome_iff_exists.mp ht
  have hdef : g.DefinedAt v before.length := ⟨node, by simp [hsplit], hv⟩
  rw [birth, hl]
  exact g.definedAt_unique (lifetimes_start db g hl) hdef

theorem birth_lt_of_mem (hsplit : g.nodes = before ++ after)
    (hne : before ≠ []) (hv : v ∈ before.flatMap Node.outputs) :
    birth (lifetimes db g) v < before.length := by
  cases hl : lifetimes db g v with
  | none =>
    rw [birth, hl]
    exact length_pos_iff.mpr hne
  | some l =>
    obtain ⟨node, hn, hout⟩ := mem_flatMap.mp hv
    obtain ⟨first, last, rfl⟩ := append_of_mem hn
    have hsplit' : g.nodes = first ++ node :: (last ++ after) := by simp [hsplit]
    rw [birth_eq db g hsplit' hout (by rw [hl]; rfl)]
    simp

/-- A managed value whose lifetime ends at position `i` is an output of one of the
first `i + 1` nodes. -/
theorem defined_of_reach {node : Node V}
    (hsplit : g.nodes = before ++ node :: after) (ht : (lifetimes db g v).isSome)
    (hend : reach (lifetimes db g) v = before.length) :
    v ∈ (before ++ [node]).flatMap Node.outputs := by
  obtain ⟨l, hl⟩ := isSome_iff_exists.mp ht
  obtain ⟨node', hn, hv⟩ := lifetimes_start db g hl
  have hle : l.start ≤ before.length := by
    have := lifetimes_ordered db g hl
    simp only [reach, hl, elim_some] at hend
    omega
  have hsplit' : g.nodes = (before ++ [node]) ++ after := by simp [hsplit]
  rw [hsplit', getElem?_append_left (by simp; omega)] at hn
  exact mem_flatMap.mpr ⟨node', mem_of_getElem? hn, hv⟩

variable {tv : V → Option T}

theorem planNodes_planned (hkeys : ∀ v, (tv v).isSome → v ∈ managed.values)
    (nodes : List (Node V)) :
    ∀ {before : List (Node V)} {s : Planner V T}, g.nodes = before ++ nodes →
      Planned tv (lifetimes db g) (before.flatMap Node.outputs)
        (fun w => reach (lifetimes db g) w < before.length) s →
      ∃ s', planNodes tv (fun i => managed.values.filter fun v =>
          decide (reach (lifetimes db g) v = i)) before.length s nodes = some s' ∧
        Planned tv (lifetimes db g) (g.nodes.flatMap Node.outputs)
          (fun w => reach (lifetimes db g) w < g.nodes.length) s' := by
  induction nodes with
  | nil =>
    intro before s hsplit h
    rw [append_nil] at hsplit
    rw [hsplit]
    exact ⟨s, rfl, h⟩
  | cons node nodes ih =>
    intro before s hsplit h
    have hsplit' : g.nodes = (before ++ [node]) ++ nodes := by simp [hsplit]
    have hone := (nodup_append.mp g.defined_once).2.1
    rw [hsplit, flatMap_append, flatMap_cons] at hone
    have hnodup : node.outputs.Nodup :=
      (nodup_append.mp (nodup_append.mp hone).2.1).1
    have hnew : ∀ v ∈ node.outputs, v ∉ before.flatMap Node.outputs := by
      intro v hv hc
      exact (nodup_append.mp hone).2.2 v hc v (mem_append_left _ hv) rfl
    obtain ⟨s₁, hs₁, h₁⟩ := Planned.assignOutputs node.outputs h hnodup hnew (by
      intro v hv ht w hw
      rw [birth_eq db g hsplit hv (managed.tracked db g (hkeys v ht))]
      exact hw)
    have h₁' : Planned tv (lifetimes db g) ((before ++ [node]).flatMap Node.outputs) _ s₁ :=
      h₁.congr_done (by simp [or_comm])
    obtain ⟨s₂, hs₂, h₂⟩ := Planned.freeTensors (i := before.length)
      (managed.values.filter fun v => decide (reach (lifetimes db g) v = before.length))
      h₁' (managed.nodup.filter _)
      (by
        intro w hw
        have := birth_lt_of_mem db g hsplit' (by simp) hw
        rw [length_append, length_singleton] at this
        omega)
      (fun w hw => hw)
      (by
        intro v hv
        obtain ⟨hm, hend⟩ := mem_filter.mp hv
        rw [decide_eq_true_eq] at hend
        exact ⟨defined_of_reach db g hsplit (managed.tracked db g hm) hend, hend,
          by rw [hend]; exact Nat.lt_irrefl _⟩)
    have h₃ : Planned tv (lifetimes db g) ((before ++ [node]).flatMap Node.outputs)
        (fun w => reach (lifetimes db g) w < (before ++ [node]).length) s₂ := by
      refine h₂.mono ?_
      intro w hw
      rw [length_append, length_singleton]
      rcases hw with hw | hw
      · omega
      · have := (mem_filter.mp hw).2
        rw [decide_eq_true_eq] at this
        omega
    obtain ⟨s₄, hs₄, h₄⟩ := ih hsplit' h₃
    refine ⟨s₄, ?_, h₄⟩
    rw [length_append, length_singleton] at hs₄
    simp [planNodes, hs₁, hs₂, hs₄]

theorem assignStorage_planned (hkeys : ∀ v, (tv v).isSome → v ∈ managed.values) :
    ∃ ranges s, managedTensorRanges db g managed.values = some ranges ∧
      assignStorageToManagedTensors tv g.nodes ranges = some s.managed_tensor_groups ∧
      Planned tv (lifetimes db g) (g.nodes.flatMap Node.outputs)
        (fun w => reach (lifetimes db g) w < g.nodes.length) s := by
  obtain ⟨s, hs, h⟩ := planNodes_planned db g managed hkeys g.nodes (nil_append _).symm
    Planned.start
  exact ⟨_, s, managedTensorRanges_eq db g managed,
    by rw [assignStorageToManagedTensors]; exact congrArg _ hs, h⟩

/-- A value is not used once it is past the end of the lifetime of `v`, if it is an
alias of `v`. -/
theorem not_used_of_reach {v w : V} (hchain : AliasChain (Node.passesAlias db) g v w)
    (ht : (lifetimes db g v).isSome) {j : Nat} (hj : j < g.nodes.length)
    (hend : reach (lifetimes db g) v < j) :
    (∀ m node, j ≤ m → g.nodes[m]? = some node → w ∉ node.inputs) ∧ w ∉ g.outputs := by
  obtain ⟨l, hl⟩ := isSome_iff_exists.mp ht
  obtain ⟨l', hl', hle⟩ := lifetimes_alias db g hchain hl
  simp only [reach, hl, elim_some] at hend
  constructor
  · intro m node hm hn hread
    have := lifetimes_read db g hl' hn hread
    omega
  · intro hout
    have := lifetimes_returned db g hl' hout
    omega

/-- The output slot of the value holds a tensor after the first run. -/
def HoldsTensor (pnodes : List (ProcessedNode V)) (v : V) : Prop :=
  ∃ pnode ∈ pnodes, ∃ k, pnode.node.outputs[k]? = some v ∧ pnode.isTensor k = true

/-- Every managed value that holds a tensor is in exactly one storage group. Of two values in one
group, neither the earlier one nor an alias of it is read by a node at or after the definition of
the later one, or returned. -/
def StorageSafe (passes : Node V → V → V → Prop) (pnodes : List (ProcessedNode V)) : Prop :=
  ∃ ranges groups, managedTensorRanges db g managed.values = some ranges ∧
    assignStorageToManagedTensors (tensorValueToTensor pnodes managed.values) g.nodes ranges =
      some groups ∧
    (∀ v ∈ managed.values, HoldsTensor pnodes v →
      ∃ t, tensorValueToTensor pnodes managed.values v = some t ∧
        ∃! k : Nat, ∃ group, groups[k]? = some group ∧ t ∈ group) ∧
    ∀ v w t t', v ≠ w → tensorValueToTensor pnodes managed.values v = some t →
      tensorValueToTensor pnodes managed.values w = some t' →
      (∃ (k : Nat) (group : _), groups[k]? = some group ∧ t ∈ group ∧ t' ∈ group) →
      ∀ i j, g.DefinedAt v i → g.DefinedAt w j → i ≤ j → ∀ u, AliasChain passes g v u →
        (∀ m node, j ≤ m → g.nodes[m]? = some node → u ∉ node.inputs) ∧ u ∉ g.outputs

/-- The storage groups are safe if pure functions pass no alias on. -/
theorem storageGroups_safe (pnodes : List (ProcessedNode V)) :
    StorageSafe db g managed (Node.passesAlias db) pnodes := by
  have hslots := tensorValueToTensor_pointsToSlot pnodes managed.values
  have hkeys : ∀ v, (tensorValueToTensor pnodes managed.values v).isSome → v ∈ managed.values := by
    intro v hv
    obtain ⟨t, ht⟩ := Option.isSome_iff_exists.mp hv
    exact (hslots v t.1 t.2 ht).1
  obtain ⟨ranges, s, hranges, hgroups, h⟩ := assignStorage_planned db g managed hkeys
  -- a tensor in a group is the tensor of the value that is mapped to the group
  have hmapped : ∀ v t, tensorValueToTensor pnodes managed.values v = some t → ∀ k,
      (∃ group, s.managed_tensor_groups[k]? = some group ∧ t ∈ group) →
      s.storage_group_mapping v = some k := by
    intro v t ht k hk
    obtain ⟨v', hv', ht'⟩ := (h.content k t).mp hk
    rw [hslots.injective ht ht']
    exact hv'
  refine ⟨ranges, s.managed_tensor_groups, hranges, hgroups, ?_, ?_⟩
  · rintro v hv ⟨pnode, hp, k, hk, htensor⟩
    have hkey : (tensorValueToTensor pnodes managed.values v).isSome :=
      (slotsFrom_isSome pnodes).mpr (.inr ⟨hv, pnode, hp, k, hk, htensor⟩)
    obtain ⟨t, ht⟩ := Option.isSome_iff_exists.mp hkey
    obtain ⟨k, hk⟩ := Option.isSome_iff_exists.mp ((h.mapped v).mpr ⟨managed.isOutput v hv, hkey⟩)
    refine ⟨t, ht, k, (h.content k t).mpr ⟨v, hk, ht⟩, ?_⟩
    intro k' hk'
    have heq := hmapped v t ht k' hk'
    rw [hk, Option.some.injEq] at heq
    exact heq.symm
  · rintro v w t t' hne ht ht' ⟨k, group, hgroup, hin, hin'⟩ i j hi hj hij u hu
    have hv := managed.tracked db g (hkeys v (by rw [ht]; rfl))
    have hw := managed.tracked db g (hkeys w (by rw [ht']; rfl))
    obtain ⟨lv, hlv⟩ := Option.isSome_iff_exists.mp hv
    obtain ⟨lw, hlw⟩ := Option.isSome_iff_exists.mp hw
    have hsi : lv.start = i := g.definedAt_unique (lifetimes_start db g hlv) hi
    have hsj : lw.start = j := g.definedAt_unique (lifetimes_start db g hlw) hj
    have hord := lifetimes_ordered db g hlw
    have hlen : j < g.nodes.length := by
      obtain ⟨node, hn, -⟩ := hj
      exact (List.getElem?_eq_some_iff.mp hn).1
    have hapart := h.apart v w k hne (hmapped v t ht k ⟨group, hgroup, hin⟩)
      (hmapped w t' ht' k ⟨group, hgroup, hin'⟩)
    refine not_used_of_reach db g hu hv hlen ?_
    simp only [reach, birth, hlv, hlw, Option.elim_some] at hapart ⊢
    omega

end Run

section Example

/-- `a = f(x); b = view(a); c = g(b); d = h(c); return d`, where `view` may be declared
to be a pure function. -/
def viewGraph (pureView : Bool) : Graph Nat where
  inputs := [0]
  nodes := [⟨[0], [1], false⟩, ⟨[1], [2], pureView⟩, ⟨[2], [3], false⟩, ⟨[3], [4], false⟩]
  outputs := [4]
  defined_once := by cases pureView <;> decide
  defined_before := by
    intro before node after hsplit
    rcases before with _ | ⟨n₁, _ | ⟨n₂, _ | ⟨n₃, _ | ⟨n₄, before⟩⟩⟩⟩ <;>
      simp at hsplit <;> grind

/-- All values are mutable, and `a` and `b` are reported to alias. -/
def viewAliasDb : AliasDb Nat := ⟨fun _ => true, fun a b => a == 1 && b == 2⟩

/-- All four values are managed; each holds a tensor. -/
def viewManaged (pureView : Bool) : ManagedTensors viewAliasDb (viewGraph pureView) where
  values := [1, 2, 3, 4]
  nodup := by decide
  isOutput := by cases pureView <;> decide
  isMutable := by decide

/-- The nodes after the first run. -/
def viewNodes (pureView : Bool) : List (ProcessedNode Nat) :=
  (viewGraph pureView).nodes.map fun n => ⟨n, fun _ => true⟩

/-- The groups that the values of the graph get. -/
def viewGroups (pureView : Bool) : Option (List (List (Nat × Nat))) :=
  (managedTensorRanges viewAliasDb (viewGraph pureView) (viewManaged pureView).values).bind
    (assignStorageToManagedTensors
      (tensorValueToTensor (viewNodes pureView) (viewManaged pureView).values)
      (viewGraph pureView).nodes)

/-- The lifetimes of `a` and of its alias `b` end at the node that defines `c`, so
that only `d` finds a group that is free. -/
example : viewGroups false = some [[(0, 0)], [(1, 0), (3, 0)], [(2, 0)]] := by decide

/-- The alias at a pure function does not extend the lifetime of `a`, whose storage goes to `c`
while `b` is read. -/
theorem storageGroups_unsafe_pureView :
    ¬ StorageSafe viewAliasDb (viewGraph true) (viewManaged true) (Node.reportsAlias viewAliasDb)
      (viewNodes true) := by
  rintro ⟨ranges, groups, hranges, hgroups, -, hsafe⟩
  have hplan : viewGroups true = some groups := by
    rw [viewGroups, hranges]
    exact hgroups
  have hvalue : viewGroups true = some [[(0, 0), (2, 0)], [(1, 0), (3, 0)]] := by decide
  obtain rfl := Option.some.inj (hplan.symm.trans hvalue)
  have hnode : (⟨[1], [2], true⟩ : Node Nat) ∈ (viewGraph true).nodes := by decide
  have hchain : AliasChain (Node.reportsAlias viewAliasDb) (viewGraph true) 1 2 :=
    .step .refl hnode ⟨by decide, by decide, by decide⟩
  have hunread := (hsafe 1 3 (0, 0) (2, 0) (by decide) (by decide) (by decide)
    ⟨0, _, rfl, by decide, by decide⟩ 0 2 ⟨_, rfl, by decide⟩ ⟨_, rfl, by decide⟩ (by decide)
    2 hchain).1
  exact hunread 2 _ (Nat.le_refl 2) rfl (by decide)

end Example

end PyTorchCore.StaticRuntime
