import PyTorchCore.Lib.Outcome
import Mathlib.Data.List.GetD
import Mathlib.Data.List.Nodup

/-!
# Unification of dimension names

The names of two tensors are matched from the right.  A name beside a wildcard must not be
elsewhere in the other list.
-/

namespace PyTorchCore.NamedTensors

open Lib List

inductive Dimname
  | wildcard
  | basic (name : String)
  deriving DecidableEq

namespace Dimname

def isBasic : Dimname → Bool
  | wildcard => false
  | basic _ => true

def unify (name other : Dimname) : Option Dimname :=
  if other = wildcard then some name
  else if name = wildcard then some other
  else if name = other then some name
  else none

end Dimname

open Dimname (wildcard basic)

/-- What a failed check reports. -/
inductive NameError
  | positional (action : String) (name otherName : Dimname) (names otherNames : List Dimname)
  | misaligned (action : String) (name : Dimname) (names otherNames : List Dimname)
  | zeroDimensional
  | differentRanks (rank otherRank : Nat)

def checkForMisalignment (action : String) (name : Dimname) (names otherNames : List Dimname) :
    Except NameError Unit :=
  if name = wildcard then .ok ()
  else if name ∈ otherNames then .error (.misaligned action name names otherNames)
  else .ok ()

/-- One turn of the loop of `unify_from_right`. -/
def unifyAt (action : String) (names otherNames : List Dimname) (name otherName : Dimname) :
    Except NameError Dimname := do
  let result ←
    match name.unify otherName with
    | some result => .ok result
    | none => .error (.positional action name otherName names otherNames)
  if !name.isBasic || !otherName.isBasic then
    checkForMisalignment action name names otherNames
    checkForMisalignment action otherName otherNames names
  return result

/-- The name at a position from the right, a wildcard where the list has ended. -/
def fromRight (names : List Dimname) (i : Nat) : Dimname :=
  names.reverse.getD i wildcard

def unifyFromRight (action : String) (names otherNames : List Dimname) :
    Except NameError (List Dimname) := do
  let result ← (List.range (max names.length otherNames.length)).mapM fun i =>
    unifyAt action names otherNames (fromRight names i) (fromRight otherNames i)
  return result.reverse

/-- No name but the wildcard occurs twice. -/
def Distinct (names : List Dimname) : Prop :=
  (names.filter Dimname.isBasic).Nodup

abbrev DimnameList := { names : List Dimname // Distinct names }

/-- A tensor; without names its dimensions have wildcards. -/
structure NamedTensor where
  sizes : List Nat
  optNames : Option DimnameList
  length_names : ∀ names, optNames = some names → names.val.length = sizes.length

namespace NamedTensor

def hasNames (tensor : NamedTensor) : Bool :=
  tensor.optNames.isSome

def names (tensor : NamedTensor) : List Dimname :=
  match tensor.optNames with
  | some names => names.val
  | none => List.replicate tensor.sizes.length wildcard

end NamedTensor

/-- One turn of the loop of `compute_cat_outnames`. -/
def catNames (result : List Dimname) (tensor : NamedTensor) : Except NameError (List Dimname) := do
  if tensor.names = [] then throw .zeroDimensional
  if result ≠ [] ∧ tensor.names.length ≠ result.length then
    throw (.differentRanks result.length tensor.names.length)
  unifyFromRight "cat" result tensor.names

def computeCatOutnames (tensors : List NamedTensor) : Except NameError (List Dimname) :=
  if tensors.any NamedTensor.hasNames then tensors.foldlM catNames [] else .ok []

/-- The names of a list are at the same positions from the right in another one. -/
def Keeps (names result : List Dimname) : Prop :=
  ∀ i name, fromRight names i = basic name → fromRight result i = basic name

section Aligned

variable {names otherNames third : List Dimname} {i j : Nat}

/-- The same names are at the same positions from the right. -/
def Aligned (names otherNames : List Dimname) : Prop :=
  ∀ i j x y, fromRight names i = basic x → fromRight otherNames j = basic y → (i = j ↔ x = y)

theorem Aligned.symm (h : Aligned names otherNames) : Aligned otherNames names :=
  fun i j x y hx hy => eq_comm.trans ((h j i y x hy hx).trans eq_comm)

theorem fromRight_eq_basic {x : String} (h : fromRight names i = basic x) :
    ∃ hi : i < names.reverse.length, names.reverse[i] = basic x := by
  by_cases hi : i < names.reverse.length
  · exact ⟨hi, by rw [← h, fromRight, getD_eq_getElem]⟩
  · rw [fromRight, getD_eq_default _ _ (by omega)] at h
    cases h

theorem mem_iff_fromRight {x : String} : basic x ∈ names ↔ ∃ i, fromRight names i = basic x := by
  constructor
  · intro h
    obtain ⟨i, hi, hx⟩ := mem_iff_getElem.mp (mem_reverse.mpr h)
    exact ⟨i, by rw [fromRight, getD_eq_getElem _ _ hi, hx]⟩
  · rintro ⟨i, h⟩
    obtain ⟨hi, hx⟩ := fromRight_eq_basic h
    exact mem_reverse.mp (hx ▸ getElem_mem hi)

/-- Names without repetition are aligned with themselves. -/
theorem distinct_iff_aligned : Distinct names ↔ Aligned names names := by
  have hpairs : Distinct names ↔ names.reverse.Pairwise fun a b =>
      a.isBasic = true → b.isBasic = true → a ≠ b := by
    rw [Distinct, ← nodup_reverse, ← filter_reverse, Nodup, pairwise_filter]
  rw [hpairs, pairwise_iff_getElem]
  constructor
  · intro h i j x y hx hy
    obtain ⟨hi, hx'⟩ := fromRight_eq_basic hx
    obtain ⟨hj, hy'⟩ := fromRight_eq_basic hy
    constructor
    · rintro rfl
      exact Dimname.basic.inj (hx.symm.trans hy)
    · rintro rfl
      rcases Nat.lt_trichotomy i j with hlt | heq | hlt
      · exact absurd (hx'.trans hy'.symm)
          (h i j hi hj hlt (by rw [hx']; rfl) (by rw [hy']; rfl))
      · exact heq
      · exact absurd (hy'.trans hx'.symm)
          (h j i hj hi hlt (by rw [hy']; rfl) (by rw [hx']; rfl))
  · intro h i j hi hj hlt hbasic _ heq
    cases hx : names.reverse[i] with
    | wildcard =>
      rw [hx] at hbasic
      cases hbasic
    | basic x =>
      have hx' : fromRight names i = basic x := by rw [fromRight, getD_eq_getElem _ _ hi, hx]
      have hy' : fromRight names j = basic x := by
        rw [fromRight, getD_eq_getElem _ _ hj, ← heq, hx]
      exact Nat.ne_of_lt hlt ((h i j x x hx' hy').mpr rfl)

end Aligned

section Union

variable {names otherNames third : List Dimname} {action : String} {i : Nat}

/-- The name of a position in the union. -/
def Dimname.orElse : Dimname → Dimname → Dimname
  | .wildcard, other => other
  | .basic name, _ => .basic name

/-- The union of two lists, as functions from positions to names. -/
def union (names otherNames : List Dimname) : List Dimname :=
  ((List.range (max names.length otherNames.length)).map fun i =>
    (fromRight names i).orElse (fromRight otherNames i)).reverse

theorem length_union : (union names otherNames).length = max names.length otherNames.length := by
  rw [union, length_reverse, length_map, length_range]

theorem fromRight_union :
    fromRight (union names otherNames) i = (fromRight names i).orElse (fromRight otherNames i) := by
  rw [fromRight, union, reverse_reverse]
  by_cases hi : i < max names.length otherNames.length
  · rw [getD_eq_getElem _ _ (by rw [length_map, length_range]; exact hi), getElem_map,
      getElem_range]
  · rw [getD_eq_default _ _ (by rw [length_map, length_range]; omega), fromRight, fromRight,
      getD_eq_default _ _ (by rw [length_reverse]; omega),
      getD_eq_default _ _ (by rw [length_reverse]; omega)]
    rfl

theorem ext_fromRight (hlength : names.length = otherNames.length)
    (h : ∀ i, fromRight names i = fromRight otherNames i) : names = otherNames := by
  refine reverse_injective (ext_getElem (by simpa using hlength) fun i hi hi' => ?_)
  have := h i
  rwa [fromRight, fromRight, getD_eq_getElem _ _ hi, getD_eq_getElem _ _ hi'] at this

theorem union_comm (h : Aligned names otherNames) :
    union names otherNames = union otherNames names := by
  refine ext_fromRight (by rw [length_union, length_union, Nat.max_comm]) fun i => ?_
  rw [fromRight_union, fromRight_union]
  cases hname : fromRight names i with
  | wildcard => cases fromRight otherNames i <;> rfl
  | basic x =>
    cases hother : fromRight otherNames i with
    | wildcard => rfl
    | basic y => exact congrArg basic ((h i i x y hname hother).mp rfl)

theorem union_assoc :
    union (union names otherNames) third = union names (union otherNames third) := by
  refine ext_fromRight ?_ fun i => ?_
  · rw [length_union, length_union, length_union, length_union, Nat.max_assoc]
  · rw [fromRight_union, fromRight_union, fromRight_union, fromRight_union]
    cases fromRight names i <;> rfl

theorem fromRight_union_basic (h : Aligned names otherNames) {x : String} :
    fromRight (union names otherNames) i = basic x ↔
      fromRight names i = basic x ∨ fromRight otherNames i = basic x := by
  rw [fromRight_union]
  cases hname : fromRight names i with
  | wildcard => exact ⟨.inr, fun hx => hx.resolve_left nofun⟩
  | basic y =>
    refine ⟨.inl, fun hx => hx.elim id fun hother => ?_⟩
    exact congrArg basic ((h i i y x hname hother).mp rfl)

theorem aligned_union (h : Aligned names otherNames) :
    Aligned (union names otherNames) third ↔ Aligned names third ∧ Aligned otherNames third := by
  constructor
  · exact fun hthird =>
      ⟨fun i j x y hx => hthird i j x y ((fromRight_union_basic h).mpr (.inl hx)),
        fun i j x y hx => hthird i j x y ((fromRight_union_basic h).mpr (.inr hx))⟩
  · rintro ⟨hnames, hother⟩ i j x y hx
    exact ((fromRight_union_basic h).mp hx).elim (hnames i j x y) (hother i j x y)

theorem distinct_union (h : Aligned names otherNames) (hnames : Distinct names)
    (hother : Distinct otherNames) : Distinct (union names otherNames) := by
  rw [distinct_iff_aligned] at hnames hother ⊢
  refine (aligned_union h).mpr ⟨((aligned_union h).mpr ⟨hnames, h.symm⟩).symm,
    ((aligned_union h).mpr ⟨h, hother⟩).symm⟩

/-- How two names at one place unify. -/
theorem unifyAt_eq (name otherName : Dimname) :
    unifyAt action names otherNames name otherName =
      match name, otherName with
      | .wildcard, .wildcard => .ok wildcard
      | .basic x, .wildcard =>
        if basic x ∈ otherNames then .error (.misaligned action (basic x) names otherNames)
        else .ok (basic x)
      | .wildcard, .basic y =>
        if basic y ∈ names then .error (.misaligned action (basic y) otherNames names)
        else .ok (basic y)
      | .basic x, .basic y =>
        if x = y then .ok (basic x)
        else .error (.positional action (basic x) (basic y) names otherNames) := by
  cases name with
  | wildcard =>
    cases otherName with
    | wildcard => rfl
    | basic y =>
      by_cases hin : basic y ∈ names <;>
        simp [unifyAt, Dimname.unify, Dimname.isBasic, checkForMisalignment, hin, bind, Except.bind,
          pure, Except.pure]
  | basic x =>
    cases otherName with
    | wildcard =>
      by_cases hin : basic x ∈ otherNames <;>
        simp [unifyAt, Dimname.unify, Dimname.isBasic, checkForMisalignment, hin, bind, Except.bind,
          pure, Except.pure]
    | basic y =>
      by_cases heq : x = y <;>
        simp [unifyAt, Dimname.unify, Dimname.isBasic, heq, bind, Except.bind, pure, Except.pure]

theorem unifyAt_aligned (h : Aligned names otherNames) (i : Nat) :
    unifyAt action names otherNames (fromRight names i) (fromRight otherNames i) =
      .ok ((fromRight names i).orElse (fromRight otherNames i)) := by
  rw [unifyAt_eq]
  cases hname : fromRight names i with
  | wildcard =>
    cases hother : fromRight otherNames i with
    | wildcard => rfl
    | basic y =>
      refine if_neg fun hin => ?_
      obtain ⟨j, hj⟩ := mem_iff_fromRight.mp hin
      obtain rfl := (h j i y y hj hother).mpr rfl
      exact nomatch hj.symm.trans hname
  | basic x =>
    cases hother : fromRight otherNames i with
    | wildcard =>
      refine if_neg fun hin => ?_
      obtain ⟨j, hj⟩ := mem_iff_fromRight.mp hin
      obtain rfl := (h i j x x hname hj).mpr rfl
      exact nomatch hj.symm.trans hother
    | basic y => exact if_pos ((h i i x y hname hother).mp rfl)

/-- Names that unify at all places are aligned. -/
theorem aligned_of_unifyAt (action : String) (hother : Distinct otherNames)
    (h : ∀ i < max names.length otherNames.length, ∃ result,
      unifyAt action names otherNames (fromRight names i) (fromRight otherNames i) = .ok result) :
    Aligned names otherNames := by
  intro i j x y hx hy
  have hi : i < max names.length otherNames.length := by
    obtain ⟨hi, -⟩ := fromRight_eq_basic hx
    rw [length_reverse] at hi
    omega
  obtain ⟨result, hresult⟩ := h i hi
  rw [unifyAt_eq, hx] at hresult
  cases hother' : fromRight otherNames i with
  | wildcard =>
    rw [hother'] at hresult
    have hout : basic x ∉ otherNames := fun hin => by
      simp only [if_pos hin] at hresult
      cases hresult
    constructor
    · rintro rfl
      exact nomatch hother'.symm.trans hy
    · rintro rfl
      exact absurd (mem_iff_fromRight.mpr ⟨j, hy⟩) hout
  | basic z =>
    rw [hother'] at hresult
    have hxz : x = z := by
      by_contra hne
      simp only [if_neg hne] at hresult
      cases hresult
    rw [hxz]
    exact distinct_iff_aligned.mp hother i j z y hother' hy

open Classical in
/-- Unification succeeds exactly on aligned names, with their union. -/
theorem unifyFromRight_eq (hother : Distinct otherNames) :
    (unifyFromRight action names otherNames).toOption =
      if Aligned names otherNames then some (union names otherNames) else none := by
  split_ifs with h
  · rw [unifyFromRight, mapM_ok fun i _ => unifyAt_aligned h i]
    rfl
  · cases hmap : (List.range (max names.length otherNames.length)).mapM fun i =>
        unifyAt action names otherNames (fromRight names i) (fromRight otherNames i) with
    | error e =>
      rw [unifyFromRight, hmap]
      rfl
    | ok result =>
      refine absurd (aligned_of_unifyAt action hother fun i hi => ?_) h
      have hpair := forall₂_of_mapM hmap
      have hlt : i < result.length := by rw [← hpair.length_eq, length_range]; exact hi
      have hat := hpair.get (by rw [length_range]; exact hi) hlt
      exact ⟨_, by simpa using hat⟩

end Union

section Laws

variable {names otherNames third result : List Dimname} {action : String} {rank : Nat}

theorem unifyFromRight_ok (hother : Distinct otherNames)
    (h : unifyFromRight action names otherNames = .ok result) :
    Aligned names otherNames ∧ result = union names otherNames := by
  have heq := @unifyFromRight_eq names otherNames action hother
  rw [h] at heq
  split_ifs at heq with haligned
  · exact ⟨haligned, Option.some.inj heq⟩
  · cases heq

theorem toOption_bind {x : Except NameError (List Dimname)}
    {f : List Dimname → Except NameError (List Dimname)} :
    (x >>= f).toOption = x.toOption.bind fun r => (f r).toOption := by
  cases x <;> rfl

theorem unifyFromRight_comm (hnames : Distinct names) (hother : Distinct otherNames) :
    (unifyFromRight action names otherNames).toOption =
      (unifyFromRight action otherNames names).toOption := by
  rw [unifyFromRight_eq hother, unifyFromRight_eq hnames]
  by_cases h : Aligned names otherNames
  · rw [if_pos h, if_pos h.symm, union_comm h]
  · rw [if_neg h, if_neg fun h' => h h'.symm]

open Classical in
theorem unifyFromRight_third (hother : Distinct otherNames) (hthird : Distinct third) :
    (unifyFromRight action names otherNames >>= (unifyFromRight action · third)).toOption =
      if Aligned names otherNames ∧ Aligned names third ∧ Aligned otherNames third then
        some (union (union names otherNames) third) else none := by
  rw [toOption_bind, unifyFromRight_eq hother]
  by_cases h : Aligned names otherNames
  · rw [if_pos h, Option.bind_some, unifyFromRight_eq hthird]
    simp only [aligned_union h, h, true_and]
  · rw [if_neg h, if_neg fun hall => h hall.1]
    rfl

theorem unifyFromRight_assoc (hnames : Distinct names) (hother : Distinct otherNames)
    (hthird : Distinct third) :
    (unifyFromRight action names otherNames >>= (unifyFromRight action · third)).toOption =
      (unifyFromRight action otherNames third >>= (unifyFromRight action names ·)).toOption := by
  have hflip : (unifyFromRight action otherNames third >>=
      (unifyFromRight action names ·)).toOption =
      (unifyFromRight action otherNames third >>= (unifyFromRight action · names)).toOption := by
    rw [toOption_bind, toOption_bind, unifyFromRight_eq hthird]
    split_ifs with h
    · exact unifyFromRight_comm hnames (distinct_union h hother hthird)
    · rfl
  rw [hflip, unifyFromRight_third hother hthird, unifyFromRight_third hthird hnames]
  by_cases h : Aligned names otherNames ∧ Aligned names third ∧ Aligned otherNames third
  · obtain ⟨h₁, h₂, h₃⟩ := h
    rw [if_pos ⟨h₁, h₂, h₃⟩, if_pos ⟨h₃, h₁.symm, h₂.symm⟩, union_assoc,
      union_comm ((aligned_union h₃).mpr ⟨h₁.symm, h₂.symm⟩)]
  · rw [if_neg h, if_neg fun h' => h ⟨h'.2.1.symm, h'.2.2.symm, h'.1⟩]

theorem NamedTensor.length_names_eq (tensor : NamedTensor) :
    tensor.names.length = tensor.sizes.length := by
  rw [names]
  split
  · next names hnames => exact tensor.length_names names hnames
  · exact length_replicate

theorem NamedTensor.distinct_names (tensor : NamedTensor) : Distinct tensor.names := by
  rw [names]
  split
  · next names _ => exact names.property
  · rw [Distinct, filter_replicate]
    exact nodup_nil

/-- The names so far: none, or those of tensors of the rank. -/
def Collected (rank : Nat) (names : List Dimname) : Prop :=
  Distinct names ∧ (names = [] ∨ names.length = rank)

variable {tensor : NamedTensor}

section

variable (h : Collected (rank + 1) names) (hrank : tensor.sizes.length = rank + 1)
include h hrank

theorem catNames_eq :
    catNames names tensor = unifyFromRight "cat" names tensor.names := by
  have hlength := tensor.length_names_eq.trans hrank
  rw [catNames, if_neg (by rintro hnil; rw [hnil] at hlength; cases hlength),
    if_neg fun hne => h.2.elim hne.1 fun heq => hne.2 (hlength.trans heq.symm)]

theorem Collected.unified (hok : unifyFromRight "cat" names tensor.names = .ok result) :
    Collected (rank + 1) result := by
  obtain ⟨haligned, rfl⟩ := unifyFromRight_ok tensor.distinct_names hok
  refine ⟨distinct_union haligned h.1 tensor.distinct_names, .inr ?_⟩
  rw [length_union, tensor.length_names_eq, hrank]
  rcases h.2 with rfl | heq
  · exact Nat.zero_max _
  · rw [heq, Nat.max_self]

end

/-- The names of `cat` do not depend on the order of the tensors. -/
theorem foldlM_catNames_perm {tensors tensors' : List NamedTensor}
    (hperm : tensors.Perm tensors') (hrank : ∀ t ∈ tensors, t.sizes.length = rank + 1)
    (h : Collected (rank + 1) names) :
    (tensors.foldlM catNames names).toOption = (tensors'.foldlM catNames names).toOption := by
  induction hperm generalizing names with
  | nil => rfl
  | cons tensor hperm ih =>
    obtain ⟨hfirst, hrest⟩ := forall_mem_cons.mp hrank
    rw [foldlM_cons, foldlM_cons, catNames_eq h hfirst, toOption_bind, toOption_bind]
    cases hok : unifyFromRight "cat" names tensor.names with
    | error => rfl
    | ok result => exact ih hrest (h.unified hfirst hok)
  | swap t u tensors =>
    obtain ⟨hu, hrest⟩ := forall_mem_cons.mp hrank
    obtain ⟨ht, -⟩ := forall_mem_cons.mp hrest
    have htwo : ∀ {t u : NamedTensor}, t.sizes.length = rank + 1 → u.sizes.length = rank + 1 →
        ((t :: u :: tensors).foldlM catNames names).toOption =
          (unifyFromRight "cat" names t.names >>= (unifyFromRight "cat" · u.names)).toOption.bind
            fun r => (tensors.foldlM catNames r).toOption := by
      intro t u ht hu
      rw [foldlM_cons, catNames_eq h ht, toOption_bind, toOption_bind]
      cases hok : unifyFromRight "cat" names t.names with
      | error => rfl
      | ok result =>
        show ((u :: tensors).foldlM catNames result).toOption =
          (unifyFromRight "cat" result u.names).toOption.bind _
        rw [foldlM_cons, catNames_eq (h.unified ht hok) hu, toOption_bind]
    have hpair : ∀ t u : NamedTensor,
        (unifyFromRight "cat" names t.names >>= (unifyFromRight "cat" · u.names)).toOption =
          (unifyFromRight "cat" t.names u.names >>= (unifyFromRight "cat" names ·)).toOption :=
      fun t u => unifyFromRight_assoc h.1 t.distinct_names u.distinct_names
    rw [htwo hu ht, htwo ht hu, hpair u t, hpair t u, toOption_bind, toOption_bind,
      unifyFromRight_comm u.distinct_names t.distinct_names]
  | trans hperm _ ih₁ ih₂ =>
    exact (ih₁ hrank h).trans (ih₂ (fun t ht => hrank t (hperm.mem_iff.mpr ht)) h)

end Laws

/-- Unification keeps names distinct and is commutative and associative, failures included; the
result of `cat` does not depend on the order of the tensors. -/
theorem unifyFromRight_laws (action : String) (names otherNames third : DimnameList) {rank : Nat}
    {tensors tensors' : List NamedTensor} (hperm : tensors.Perm tensors')
    (hrank : ∀ t ∈ tensors, t.sizes.length = rank) :
    (∀ result, unifyFromRight action names otherNames = .ok result →
      Distinct result ∧ Keeps names result ∧ Keeps otherNames result) ∧
    (unifyFromRight action names otherNames).toOption =
      (unifyFromRight action otherNames names).toOption ∧
    (unifyFromRight action names otherNames >>= (unifyFromRight action · third)).toOption =
      (unifyFromRight action otherNames third >>= (unifyFromRight action names ·)).toOption ∧
    (computeCatOutnames tensors).toOption = (computeCatOutnames tensors').toOption := by
  refine ⟨fun result hok => ?_, unifyFromRight_comm names.2 otherNames.2,
    unifyFromRight_assoc names.2 otherNames.2 third.2, ?_⟩
  · obtain ⟨haligned, rfl⟩ := unifyFromRight_ok otherNames.2 hok
    exact ⟨distinct_union haligned names.2 otherNames.2,
      fun i name hname => (fromRight_union_basic haligned).mpr (.inl hname),
      fun i name hname => (fromRight_union_basic haligned).mpr (.inr hname)⟩
  · have hany : tensors'.any NamedTensor.hasNames = tensors.any NamedTensor.hasNames := by
      rw [Bool.eq_iff_iff, any_eq_true, any_eq_true]
      exact exists_congr fun t => and_congr_left fun _ => hperm.symm.mem_iff
    rw [computeCatOutnames, computeCatOutnames, hany]
    split_ifs
    · cases rank with
      | succ rank =>
        exact foldlM_catNames_perm hperm hrank ⟨nodup_nil, .inl rfl⟩
      | zero =>
        have hfails : ∀ tensors : List NamedTensor, (∀ t ∈ tensors, t.sizes.length = 0) →
            (tensors.foldlM catNames []).toOption = if tensors = [] then some [] else none := by
          intro tensors hzero
          cases tensors with
          | nil => rfl
          | cons t tensors =>
            have hnil : t.names = [] := eq_nil_of_length_eq_zero
              (t.length_names_eq.trans (hzero t mem_cons_self))
            rw [foldlM_cons, catNames, if_pos hnil]
            rfl
        rw [hfails _ hrank, hfails _ fun t ht => hrank t (hperm.mem_iff.mpr ht)]
        simp only [← length_eq_zero_iff, hperm.length_eq]
    · rfl

def rows : NamedTensor :=
  ⟨[2, 3], some ⟨[.basic "N", .wildcard], by unfold Distinct; decide⟩,
    fun _ h => Option.some.inj h ▸ rfl⟩

def columns : NamedTensor :=
  ⟨[4, 3], some ⟨[.wildcard, .basic "C"], by unfold Distinct; decide⟩,
    fun _ h => Option.some.inj h ▸ rfl⟩

/-- A matrix with named rows and one with named columns. -/
theorem unifyFromRight_laws_rowsAndColumns :
    [rows, columns].Perm [columns, rows] ∧
    (computeCatOutnames [rows, columns]).toOption = some [.basic "N", .basic "C"] ∧
    (computeCatOutnames [rows, columns]).toOption =
      (computeCatOutnames [columns, rows]).toOption :=
  ⟨.swap _ _ [], rfl, (unifyFromRight_laws "cat" ⟨[], nodup_nil⟩ ⟨[], nodup_nil⟩ ⟨[], nodup_nil⟩
    (.swap columns rows []) (by decide : ∀ t ∈ [rows, columns], t.sizes.length = 2)).2.2.2⟩

end PyTorchCore.NamedTensors
