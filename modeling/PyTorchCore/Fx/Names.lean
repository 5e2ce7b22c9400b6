import PyTorchCore.Lib.Machine
import Mathlib.Data.List.Nodup
import Mathlib.Data.List.Perm.Subperm

/-!
# Names in an FX graph

A `_Namespace` makes a candidate an identifier, splits a numeric suffix off, and counts the suffix
up until the name is free.
-/

namespace PyTorchCore.Fx

open Lib
open Option Function List

universe u v

abbrev Name := List Char

/-- What the namespace takes from Python.  Equal objects have the same key, and objects without
a hash have none.  `None` is a keyword, so no value of `builtins` that matters is `None`. -/
structure Library (O : Type u) (K : Type v) where
  kwlist : List Name
  builtins : List (Name × O)
  customBuiltins : List (Name × O)
  key : O → Option K

/-- A `_Namespace`; `None` is a key of the dict like others. -/
structure Namespace (K : Type v) where
  objToName : Option K → Option Name
  unassociatedNames : List Name
  usedNames : List Name

def isLegalChar (c : Char) : Bool :=
  c.isAlphanum || c = '_'

/-- `[^0-9a-zA-Z_]+` replaced by `_`; the flag says that the last character was. -/
def subIllegal : Bool → Name → Name
  | _, [] => []
  | inRun, c :: rest =>
    if isLegalChar c then c :: subIllegal false rest
    else if inRun then subIllegal true rest
    else '_' :: subIllegal true rest

/-- The match of `(.*)_(\d+)$`. -/
def splitSuffix (candidate : Name) : Name × Option Nat :=
  let digits := (candidate.reverse.takeWhile Char.isDigit).reverse
  match candidate.reverse.dropWhile Char.isDigit with
  | '_' :: base =>
    if digits = [] then (candidate, none)
    else (base.reverse, some (Nat.ofDigitChars 10 digits 0))
  | _ => (candidate, none)

def numbered (base : Name) (num : Nat) : Name :=
  base ++ '_' :: Nat.toDigits 10 num

inductive Result
  | returned (name : Name)
  | done
  | raised
  | diverged
deriving DecidableEq

variable {O : Type u} {K : Type v} [DecidableEq O]

namespace Library

def keyOf (lib : Library O K) : Option O → Option (Option K)
  | none => some none
  | some o => (lib.key o).map some

def isIllegalName (lib : Library O K) (name : Name) (obj : Option O) : Bool :=
  if name ∈ lib.kwlist then true
  else
    match lib.builtins.lookup name with
    | some o => decide (obj ≠ some o)
    | none =>
      match lib.customBuiltins.lookup name with
      | some o => decide (obj ≠ some o)
      | none => false

/-- The loop of `create_name`. -/
def search (lib : Library O K) (obj : Option O) (used : List Name) (base : Name) :
    Nat → Nat → Name → Option Name
  | 0, _, _ => none
  | fuel + 1, num, candidate =>
    if candidate ∈ used ∨ lib.isIllegalName candidate obj = true then
      search lib obj used base fuel (num + 1) (numbered base (num + 1))
    else some candidate

def reserved (lib : Library O K) (name : Name) : Option O :=
  (lib.builtins.lookup name).or (lib.customBuiltins.lookup name)

/-- All names that may be taken. -/
def taken (lib : Library O K) (used : List Name) : List Name :=
  used ++ (lib.kwlist ++ (lib.builtins.map Prod.fst ++ lib.customBuiltins.map Prod.fst))

end Library

inductive Call (O : Type u)
  | createName (candidate : Name) (obj : Option O)
  | associateNameWithObj (name : Name) (obj : Option O)

section Calls

variable [DecidableEq K]

namespace Namespace

def empty : Namespace K := ⟨fun _ => none, [], []⟩

/-- A new name is used, and associated if there is an object. -/
def record (name : Name) (obj : Option O) (k : Option K) (s : Namespace K) : Namespace K :=
  let s := { s with usedNames := name :: s.usedNames }
  match obj with
  | none => { s with unassociatedNames := name :: s.unassociatedNames }
  | some _ => { s with objToName := Function.update s.objToName k (some name) }

/-- `create_name` for an object that has no name. -/
def newName (lib : Library O K) (candidate : Name) (obj : Option O) (k : Option K)
    (s : Namespace K) : Namespace K × Result :=
  match subIllegal false candidate with
  | [] => (s, .raised)
  | c :: rest =>
    let candidate := if c.isDigit then '_' :: c :: rest else c :: rest
    let base := (splitSuffix candidate).1
    let num := (splitSuffix candidate).2
    let candidate := match num with
      | none => base
      | some n => numbered base n
    match lib.search obj s.usedNames base ((lib.taken s.usedNames).length + 2) (num.getD 0)
      candidate with
    | none => (s, .diverged)
    | some name => (s.record name obj k, .returned name)

def createName (lib : Library O K) (candidate : Name) (obj : Option O) (s : Namespace K) :
    Namespace K × Result :=
  match lib.keyOf obj with
  | none => (s, .raised)
  | some k =>
    match if obj.isSome then s.objToName k else none with
    | some name => (s, .returned name)
    | none => s.newName lib candidate obj k

def associateNameWithObj (lib : Library O K) (name : Name) (obj : Option O) (s : Namespace K) :
    Namespace K × Result :=
  match lib.keyOf obj with
  | none => (s, .raised)
  | some k =>
    if s.objToName k ≠ none ∨ name ∉ s.unassociatedNames then (s, .raised)
    else ({ s with
      objToName := Function.update s.objToName k (some name)
      unassociatedNames := s.unassociatedNames.filter (· ≠ name) }, .done)

end Namespace

def naming (lib : Library O K) : Machine (Namespace K) (Call O) Result where
  init := Namespace.empty
  step
    | s, .createName candidate obj => s.createName lib candidate obj
    | s, .associateNameWithObj name obj => s.associateNameWithObj lib name obj

end Calls

def Identifier (name : Name) : Prop :=
  (∃ c rest, name = c :: rest ∧ c.isDigit = false) ∧ ∀ c ∈ name, isLegalChar c = true

section Candidates

variable {candidate base name : Name} {num : Nat}

/-- What is left has only legal characters. -/
theorem subIllegal_legal (inRun : Bool) (cs : Name) :
    ∀ c ∈ subIllegal inRun cs, isLegalChar c = true := by
  induction cs generalizing inRun with
  | nil => exact nofun
  | cons d rest ih =>
    intro c hc
    rw [subIllegal] at hc
    split_ifs at hc with hd hrun
    · rcases mem_cons.mp hc with rfl | hc
      · exact hd
      · exact ih false c hc
    · exact ih true c hc
    · rcases mem_cons.mp hc with rfl | hc
      · decide
      · exact ih true c hc

theorem subIllegal_eq_nil (h : subIllegal false candidate = []) : candidate = [] := by
  cases candidate with
  | nil => rfl
  | cons c rest =>
    rw [subIllegal] at h
    split_ifs at h with _ hfalse
    exact hfalse.elim

theorem splitSuffix_base (candidate : Name) : (splitSuffix candidate).1 <+: candidate ∧
    ((splitSuffix candidate).2 = none → (splitSuffix candidate).1 = candidate) := by
  rw [splitSuffix]
  split
  · next base hbase =>
    split
    · exact ⟨prefix_rfl, fun _ => rfl⟩
    · refine ⟨reverse_suffix.mp ?_, nofun⟩
      rw [reverse_reverse]
      exact ((suffix_cons '_' base).trans (hbase ▸ dropWhile_suffix _))
  · exact ⟨prefix_rfl, fun _ => rfl⟩

theorem numbered_identifier (h : Identifier candidate) (hbase : base <+: candidate) (num : Nat) :
    Identifier (numbered base num) := by
  obtain ⟨⟨c, rest, rfl, hc⟩, hlegal⟩ := h
  constructor
  · cases base with
    | nil => exact ⟨'_', _, rfl, by decide⟩
    | cons d base => exact ⟨d, _, rfl, (cons_prefix_cons.mp hbase).1 ▸ hc⟩
  · intro d hd
    rcases mem_append.mp hd with hd | hd
    · exact hlegal d (hbase.subset hd)
    · rcases mem_cons.mp hd with rfl | hd
      · decide
      · have hdigit := Nat.isDigit_of_mem_toDigits (by decide) (by decide) hd
        simp [isLegalChar, Char.isAlphanum, hdigit]

theorem numbered_inj {m n : Nat} (h : numbered base m = numbered base n) : m = n := by
  have hdigits := (List.cons.inj (append_cancel_left h)).2
  rw [← Nat.ofDigitChars_ten_toDigits (n := m), hdigits, Nat.ofDigitChars_ten_toDigits]

end Candidates

section Search

variable {lib : Library O K} {obj : Option O} {used : List Name} {base candidate name : Name}
  {fuel num : Nat}

namespace Library

theorem isIllegalName_eq_false (h : lib.isIllegalName name obj = false) :
    name ∉ lib.kwlist ∧ ∀ o, lib.reserved name = some o → obj = some o := by
  rw [isIllegalName] at h
  split_ifs at h with hkeyword
  refine ⟨hkeyword, fun o ho => ?_⟩
  rw [reserved] at ho
  cases hbuiltin : lib.builtins.lookup name with
  | some b =>
    rw [hbuiltin] at h ho
    cases ho
    exact not_not.mp (of_decide_eq_false h)
  | none =>
    rw [hbuiltin, none_or] at ho
    rw [hbuiltin, ho] at h
    exact not_not.mp (of_decide_eq_false h)

omit [DecidableEq O] in
theorem mem_of_lookup {entries : List (Name × O)} {o : O} (h : entries.lookup name = some o) :
    name ∈ entries.map Prod.fst := by
  obtain ⟨front, back, hentries, -⟩ := lookup_eq_some_iff.mp h
  rw [hentries]
  simp

theorem mem_taken (h : name ∈ used ∨ lib.isIllegalName name obj = true) :
    name ∈ lib.taken used := by
  rcases h with h | h
  · exact mem_append_left _ h
  · refine mem_append_right _ ?_
    rw [isIllegalName] at h
    split_ifs at h with hkeyword
    · exact mem_append_left _ hkeyword
    · refine mem_append_right _ ?_
      cases hbuiltin : lib.builtins.lookup name with
      | some b => exact mem_append_left _ (mem_of_lookup hbuiltin)
      | none =>
        rw [hbuiltin] at h
        cases hcustom : lib.customBuiltins.lookup name with
        | some b => exact mem_append_right _ (mem_of_lookup hcustom)
        | none =>
          rw [hcustom] at h
          cases h

theorem search_some (h : lib.search obj used base fuel num candidate = some name) :
    name ∉ used ∧ lib.isIllegalName name obj = false ∧
      (name = candidate ∨ ∃ m, name = numbered base m) := by
  induction fuel generalizing num candidate with
  | zero => cases h
  | succ fuel ih =>
    rw [search] at h
    split_ifs at h with htaken
    · obtain ⟨hused, hlegal, hname⟩ := ih h
      exact ⟨hused, hlegal, .inr (hname.elim (fun heq => ⟨_, heq⟩) id)⟩
    · rw [← Option.some.inj h]
      rw [not_or, Bool.not_eq_true] at htaken
      exact ⟨htaken.1, htaken.2, .inl rfl⟩

theorem search_none (h : lib.search obj used base fuel num candidate = none) :
    (0 < fuel → candidate ∈ lib.taken used) ∧
      ∀ i, i + 1 < fuel → numbered base (num + 1 + i) ∈ lib.taken used := by
  induction fuel generalizing num candidate with
  | zero => exact ⟨fun hpos => absurd hpos (Nat.lt_irrefl 0), fun i hi => absurd hi (by omega)⟩
  | succ fuel ih =>
    rw [search] at h
    split_ifs at h with htaken
    obtain ⟨hnext, hrest⟩ := ih h
    refine ⟨fun _ => mem_taken htaken, fun i hi => ?_⟩
    cases i with
    | zero => exact hnext (by omega)
    | succ i =>
      have hin := hrest i (by omega)
      rwa [show num + 1 + 1 + i = num + 1 + (i + 1) by omega] at hin

/-- The loop ends: only so many names are taken. -/
theorem search_isSome :
    ∃ name, lib.search obj used base ((lib.taken used).length + 2) num candidate = some name := by
  by_contra hnone
  have hall := (search_none (eq_none_iff_forall_ne_some.mpr (not_exists.mp hnone))).2
  have hsubset : (List.range ((lib.taken used).length + 1)).map
      (fun i => numbered base (num + 1 + i)) ⊆ lib.taken used := by
    intro name hname
    obtain ⟨i, hi, rfl⟩ := mem_map.mp hname
    exact hall i (by have := mem_range.mp hi; omega)
  have hnodup : ((List.range ((lib.taken used).length + 1)).map
      (fun i => numbered base (num + 1 + i))).Nodup :=
    Nodup.map (fun i j h => by have := numbered_inj h; omega) nodup_range
  have hlength := (Nodup.subperm hnodup hsubset).length_le
  rw [length_map, length_range] at hlength
  omega

end Library

variable [DecidableEq K]

theorem Namespace.newName_spec (lib : Library O K) (candidate : Name) (obj : Option O)
    (k : Option K) (s : Namespace K) :
    (candidate = [] ∧ s.newName lib candidate obj k = (s, .raised)) ∨
      ∃ name, s.newName lib candidate obj k = (s.record name obj k, .returned name) ∧
        name ∉ s.usedNames ∧ Identifier name ∧ name ∉ lib.kwlist ∧
        ∀ o, lib.reserved name = some o → obj = some o := by
  rw [newName]
  cases hsub : subIllegal false candidate with
  | nil => exact .inl ⟨subIllegal_eq_nil hsub, rfl⟩
  | cons c rest =>
    right
    have hchars : ∀ d ∈ c :: rest, isLegalChar d = true := hsub ▸ subIllegal_legal false candidate
    dsimp only
    obtain ⟨legal, hlegal⟩ : ∃ legal, legal = if c.isDigit then '_' :: c :: rest else c :: rest :=
      ⟨_, rfl⟩
    have hident : Identifier legal := by
      rw [hlegal]
      split
      · refine ⟨⟨'_', _, rfl, by decide⟩, fun d hd => ?_⟩
        rcases mem_cons.mp hd with rfl | hd
        · decide
        · exact hchars d hd
      · next hdigit => exact ⟨⟨c, rest, rfl, Bool.not_eq_true _ ▸ hdigit⟩, hchars⟩
    rw [← hlegal]
    obtain ⟨hbase, hwhole⟩ := splitSuffix_base legal
    obtain ⟨name, hname⟩ := @lib.search_isSome _ _ _ obj s.usedNames _ _ _
    obtain ⟨hused, hfree, hform⟩ := lib.search_some hname
    rw [hname]
    refine ⟨name, rfl, hused, ?_, lib.isIllegalName_eq_false hfree⟩
    rcases hform with hform | ⟨m, hform⟩
    · rw [hform]
      cases hnum : (splitSuffix legal).2 with
      | none =>
        rw [hwhole hnum]
        exact hident
      | some n => exact numbered_identifier hident hbase n
    · rw [hform]
      exact numbered_identifier hident hbase m

end Search

section Invariant

variable [DecidableEq K] {lib : Library O K} {s : Namespace K} {k : Option K} {name : Name}
  {obj : Option O}

/-- Used names are legal, and belong to one object at most. -/
structure Namespace.Inv (lib : Library O K) (s : Namespace K) : Prop where
  legal : ∀ n ∈ s.usedNames, Identifier n ∧ n ∉ lib.kwlist
  named : ∀ k n, s.objToName k = some n → n ∈ s.usedNames ∧ n ∉ s.unassociatedNames ∧
    ∀ o, lib.reserved n = some o → lib.keyOf (some o) = some k
  waiting : ∀ n ∈ s.unassociatedNames, n ∈ s.usedNames ∧ lib.reserved n = none
  unique : ∀ k k' n, s.objToName k = some n → s.objToName k' = some n → k = k'

/-- What a call keeps: the names of objects, and the other names until they are associated. -/
structure Keeps (lib : Library O K) (calls : List (Call O)) (s t : Namespace K) : Prop where
  used : ∀ n ∈ s.usedNames, n ∈ t.usedNames
  named : ∀ k n, s.objToName k = some n → t.objToName k = some n
  waiting : ∀ n ∈ s.unassociatedNames, n ∈ t.unassociatedNames ∨ ∃ x k,
    Call.associateNameWithObj n x ∈ calls ∧ lib.keyOf x = some k ∧ t.objToName k = some n

omit [DecidableEq O] [DecidableEq K] in
theorem Keeps.refl (lib : Library O K) (calls : List (Call O)) (s : Namespace K) :
    Keeps lib calls s s :=
  ⟨fun _ hn => hn, fun _ _ hk => hk, fun _ hn => .inl hn⟩

omit [DecidableEq O] in
/-- Assigning a name to an object keeps the names given before. -/
theorem Keeps.assign {calls : List (Call O)} (h : s.objToName k = none) (used waiting : List Name)
    (hused : ∀ n ∈ s.usedNames, n ∈ used)
    (hwaiting : ∀ n ∈ s.unassociatedNames, n ∈ waiting ∨
      n = name ∧ ∃ x, Call.associateNameWithObj n x ∈ calls ∧ lib.keyOf x = some k) :
    Keeps lib calls s ⟨update s.objToName k (some name), waiting, used⟩ := by
  refine ⟨hused, fun k' n hk' => ?_, fun n hn => (hwaiting n hn).imp id ?_⟩
  · rw [← hk']
    exact update_of_ne (fun heq => by rw [heq, h] at hk'; cases hk') _ _
  · rintro ⟨rfl, x, hx, hkey⟩
    exact ⟨x, k, hx, hkey, update_self _ _ _⟩

omit [DecidableEq O] in
/-- Assigning a name keeps the names distinct. -/
theorem Namespace.Inv.assign (h : s.Inv lib) (hnone : s.objToName k = none)
    (used waiting : List Name)
    (hused : ∀ n ∈ used, n ∈ s.usedNames ∨ n = name ∧ Identifier name ∧ name ∉ lib.kwlist)
    (hkept : ∀ n, n ∈ s.usedNames ∨ n = name → n ∈ used)
    (hwaiting : ∀ n ∈ waiting, n ∈ s.unassociatedNames ∧ n ≠ name)
    (hfree : ∀ k', s.objToName k' ≠ some name)
    (hreserved : ∀ o, lib.reserved name = some o → lib.keyOf (some o) = some k) :
    Namespace.Inv lib ⟨update s.objToName k (some name), waiting, used⟩ := by
  have hupdate : ∀ k' n, update s.objToName k (some name) k' = some n →
      k' = k ∧ n = name ∨ s.objToName k' = some n ∧ n ≠ name := by
    intro k' n hk'
    by_cases heq : k' = k
    · rw [heq, update_self] at hk'
      exact .inl ⟨heq, (Option.some.inj hk').symm⟩
    · rw [update_of_ne heq] at hk'
      exact .inr ⟨hk', fun hn => hfree k' (hn ▸ hk')⟩
  refine ⟨fun n hn => ?_, fun k' n hk' => ?_, fun n hn => ?_, fun k₁ k₂ n h₁ h₂ => ?_⟩
  · rcases hused n hn with hn | ⟨rfl, hlegal⟩
    · exact h.legal n hn
    · exact hlegal
  · rcases hupdate k' n hk' with ⟨rfl, rfl⟩ | ⟨hk', hne⟩
    · exact ⟨hkept n (.inr rfl), fun hn => (hwaiting n hn).2 rfl, hreserved⟩
    · obtain ⟨hn, hout, hright⟩ := h.named k' n hk'
      exact ⟨hkept n (.inl hn), fun hin => hout (hwaiting n hin).1, hright⟩
  · obtain ⟨hn, hright⟩ := h.waiting n (hwaiting n hn).1
    exact ⟨hkept n (.inl hn), hright⟩
  · rcases hupdate k₁ n h₁ with ⟨rfl, rfl⟩ | ⟨h₁, hne⟩
    · rcases hupdate k₂ n h₂ with ⟨rfl, -⟩ | ⟨-, hne⟩
      · rfl
      · exact absurd rfl hne
    · rcases hupdate k₂ n h₂ with ⟨-, rfl⟩ | ⟨h₂, -⟩
      · exact absurd rfl hne
      · exact h.unique k₁ k₂ n h₁ h₂

theorem createName_cases (lib : Library O K) (candidate : Name) (obj : Option O) (s : Namespace K) :
    (∃ k name, lib.keyOf obj = some k ∧ obj ≠ none ∧ s.objToName k = some name ∧
        s.createName lib candidate obj = (s, .returned name)) ∨
      (∃ k name, lib.keyOf obj = some k ∧ (obj ≠ none → s.objToName k = none) ∧
        s.createName lib candidate obj = (s.record name obj k, .returned name) ∧
        name ∉ s.usedNames ∧ Identifier name ∧ name ∉ lib.kwlist ∧
        ∀ o, lib.reserved name = some o → obj = some o) ∨
      (candidate = [] ∨ lib.keyOf obj = none) ∧ s.createName lib candidate obj = (s, .raised) := by
  rw [Namespace.createName]
  cases hkey : lib.keyOf obj with
  | none => exact .inr (.inr ⟨.inr rfl, rfl⟩)
  | some k =>
    dsimp only
    have hnew := s.newName_spec lib candidate obj k
    cases hname : (if obj.isSome then s.objToName k else none) with
    | some name =>
      left
      split_ifs at hname with hsome
      exact ⟨k, name, rfl, isSome_iff_ne_none.mp hsome, hname, rfl⟩
    | none =>
      right
      rcases hnew with ⟨hempty, hraised⟩ | ⟨name, hrun, hfresh⟩
      · exact .inr ⟨.inl hempty, hraised⟩
      · refine .inl ⟨k, name, rfl, fun hne => ?_, hrun, hfresh⟩
        rwa [if_pos (isSome_iff_ne_none.mpr hne)] at hname

theorem step_kept (h : s.Inv lib) (call : Call O) :
    ((naming lib).next s call).Inv lib ∧ Keeps lib [call] s ((naming lib).next s call) := by
  cases call with
  | createName candidate obj =>
    show (s.createName lib candidate obj).1.Inv lib ∧
      Keeps lib _ s (s.createName lib candidate obj).1
    rcases createName_cases lib candidate obj s with ⟨k, name, -, -, -, hrun⟩ |
      ⟨k, name, hkey, hnone, hrun, hused, hident, hkeyword, hreserved⟩ | ⟨-, hrun⟩
    · rw [hrun]
      exact ⟨h, .refl lib _ s⟩
    · rw [hrun]
      cases obj with
      | none =>
        refine ⟨⟨fun n hn => ?_, fun k' n hk' => ?_, fun n hn => ?_, h.unique⟩,
          fun n hn => mem_cons_of_mem name hn, fun _ _ hk' => hk',
          fun n hn => .inl (mem_cons_of_mem name hn)⟩
        · rcases mem_cons.mp hn with rfl | hn
          · exact ⟨hident, hkeyword⟩
          · exact h.legal n hn
        · obtain ⟨hn, hout, hright⟩ := h.named k' n hk'
          refine ⟨mem_cons_of_mem name hn, fun hin => ?_, hright⟩
          exact (mem_cons.mp hin).elim (fun heq => hused (heq ▸ hn)) hout
        · rcases mem_cons.mp hn with rfl | hn
          · exact ⟨mem_cons_self, eq_none_iff_forall_ne_some.mpr fun o ho => nomatch hreserved o ho⟩
          · exact ⟨mem_cons_of_mem name (h.waiting n hn).1, (h.waiting n hn).2⟩
      | some o =>
        have hnone := hnone nofun
        refine ⟨h.assign hnone _ _ (fun n hn => ?_) (fun n hn => ?_) (fun n hn => ⟨hn, ?_⟩)
          (fun k' hk' => hused (h.named k' name hk').1) fun b hb => hreserved b hb ▸ hkey,
          .assign hnone _ _ (fun n hn => mem_cons_of_mem name hn) fun n hn => .inl hn⟩
        · exact (mem_cons.mp hn).symm.imp id fun heq => ⟨heq, hident, hkeyword⟩
        · exact mem_cons.mpr hn.symm
        · exact fun heq => hused (heq ▸ (h.waiting n hn).1)
    · rw [hrun]
      exact ⟨h, .refl lib _ s⟩
  | associateNameWithObj name obj =>
    show (s.associateNameWithObj lib name obj).1.Inv lib ∧
      Keeps lib _ s (s.associateNameWithObj lib name obj).1
    rw [Namespace.associateNameWithObj]
    cases hkey : lib.keyOf obj with
    | none => exact ⟨h, .refl lib _ s⟩
    | some k =>
      dsimp only
      split_ifs with hbad
      · exact ⟨h, .refl lib _ s⟩
      · rw [not_or, not_not, not_not] at hbad
        obtain ⟨hnone, hin⟩ := hbad
        obtain ⟨hused, hreserved⟩ := h.waiting name hin
        refine ⟨h.assign hnone _ _ (fun n hn => .inl hn) (fun n hn => ?_) (fun n hn => ?_)
          (fun k' hk' => (h.named k' name hk').2.1 hin)
          (fun o ho => nomatch hreserved.symm.trans ho), .assign hnone _ _
            (fun n hn => hn) fun n hn => ?_⟩
        · exact hn.elim id fun heq => heq ▸ hused
        · obtain ⟨hn, hne⟩ := mem_filter.mp hn
          exact ⟨hn, of_decide_eq_true hne⟩
        · by_cases heq : n = name
          · exact .inr ⟨heq, obj, heq ▸ mem_singleton_self _, hkey⟩
          · exact .inl (mem_filter.mpr ⟨hn, decide_eq_true heq⟩)

omit [DecidableEq O] [DecidableEq K] in
theorem Keeps.trans {calls calls' : List (Call O)} {t u : Namespace K} (h : Keeps lib calls s t)
    (h' : Keeps lib calls' t u) : Keeps lib (calls ++ calls') s u := by
  refine ⟨fun n hn => h'.used n (h.used n hn), fun k n hk => h'.named k n (h.named k n hk),
    fun n hn => ?_⟩
  rcases h.waiting n hn with hn | ⟨x, k, hx, hkey, hk⟩
  · rcases h'.waiting n hn with hn | ⟨x, k, hx, hkey, hk⟩
    · exact .inl hn
    · exact .inr ⟨x, k, mem_append_right _ hx, hkey, hk⟩
  · exact .inr ⟨x, k, mem_append_left _ hx, hkey, h'.named k n hk⟩

theorem exec_kept (h : s.Inv lib) (calls : List (Call O)) :
    ((naming lib).exec s calls).Inv lib ∧ Keeps lib calls s ((naming lib).exec s calls) := by
  induction calls generalizing s with
  | nil => exact ⟨h, .refl lib _ s⟩
  | cons call calls ih =>
    obtain ⟨hinv, hkeeps⟩ := step_kept h call
    exact ⟨(ih hinv).1, hkeeps.trans (ih hinv).2⟩

omit [DecidableEq O] [DecidableEq K] in
theorem inv_empty_names (lib : Library O K) : (Namespace.empty : Namespace K).Inv lib :=
  ⟨nofun, nofun, nofun, nofun⟩

theorem createName_used {t : Namespace K} {candidate : Name} (ht : t.Inv lib)
    (hused : name ∈ t.usedNames) (calls : List (Call O))
    (hrun : (((naming lib).exec t calls).createName lib candidate obj).2 = .returned name) :
    obj ≠ none ∧ ∃ k, lib.keyOf obj = some k ∧ (∀ k', t.objToName k' = some name → k' = k) ∧
      (name ∈ t.unassociatedNames →
        ∃ x, Call.associateNameWithObj name x ∈ calls ∧ lib.keyOf x = some k) := by
  obtain ⟨hu, hkeeps⟩ := exec_kept ht calls
  rcases createName_cases lib candidate obj ((naming lib).exec t calls) with
    ⟨k, name', hkey, hne, hk, hrun'⟩ | ⟨k, name', -, -, hrun', hfresh, -⟩ | ⟨-, hrun'⟩
  all_goals cases (congrArg Prod.snd hrun').symm.trans hrun
  · refine ⟨hne, k, hkey, fun k' hk' => hu.unique k' k name (hkeeps.named k' name hk') hk,
      fun hin => ?_⟩
    rcases hkeeps.waiting name hin with hin | ⟨x, k', hx, hkey', hk'⟩
    · exact absurd hin (hu.named k name hk).2.1
    · exact ⟨x, hx, hkey'.trans (congrArg some (hu.unique k' k name hk' hk))⟩
  · exact absurd (hkeeps.used name hused) hfresh

abbrev named (lib : Library O K) (calls : List (Call O)) : Namespace K :=
  (naming lib).exec (naming lib).init calls

/-- **What `create_name` returns.** After any sequence of calls the loop ends; only an empty
candidate and an object without a hash raise; names are identifiers and no keywords; and the same
name is returned again only for an equal object, or for one that was associated with it. -/
theorem createName_names (lib : Library O K) (calls : List (Call O)) (candidate : Name)
    (obj : Option O) :
    ((named lib calls).createName lib candidate obj).2 ≠ .diverged ∧
    (((named lib calls).createName lib candidate obj).2 = .raised →
      candidate = [] ∨ lib.keyOf obj = none) ∧
    ∀ name, ((named lib calls).createName lib candidate obj).2 = .returned name →
      Identifier name ∧ name ∉ lib.kwlist ∧
      (∀ o, lib.reserved name = some o → lib.keyOf obj = lib.keyOf (some o)) ∧
      ∀ later candidate' obj', ((named lib
          (calls ++ .createName candidate obj :: later)).createName lib candidate' obj').2 =
            .returned name →
        obj' ≠ none ∧ (lib.keyOf obj = lib.keyOf obj' ∨ obj = none ∧
          ∃ x, Call.associateNameWithObj name x ∈ later ∧ lib.keyOf x = lib.keyOf obj') := by
  obtain ⟨s, hs⟩ : ∃ s, s = named lib calls := ⟨_, rfl⟩
  have hinv : s.Inv lib := hs ▸ (exec_kept (inv_empty_names lib) calls).1
  have hstep : (s.createName lib candidate obj).1.Inv lib :=
    (step_kept hinv (.createName candidate obj)).1
  have hlater : ∀ later, named lib (calls ++ .createName candidate obj :: later) =
      (naming lib).exec (s.createName lib candidate obj).1 later := fun later => by
    rw [named, Machine.exec_append, hs]
    rfl
  simp only [hlater, ← hs]
  rcases createName_cases lib candidate obj s with ⟨k, name, hkey, hne, hk, hrun⟩ |
    ⟨k, name, hkey, hnone, hrun, hused, hident, hkeyword, hreserved⟩ | ⟨hcause, hrun⟩
  · rw [hrun]
    refine ⟨nofun, nofun, ?_⟩
    rintro _ ⟨⟩
    obtain ⟨hin, -, hright⟩ := hinv.named k name hk
    refine ⟨(hinv.legal name hin).1, (hinv.legal name hin).2,
      fun o ho => hkey.trans (hright o ho).symm, fun later candidate' obj' hrun' => ?_⟩
    obtain ⟨hne', k', hkey', hsame, -⟩ := createName_used hinv hin later hrun'
    exact ⟨hne', .inl (by rw [hkey, hkey', hsame k hk])⟩
  · rw [hrun] at hstep ⊢
    refine ⟨nofun, nofun, ?_⟩
    rintro _ ⟨⟩
    refine ⟨hident, hkeyword, fun o ho => hreserved o ho ▸ rfl,
      fun later candidate' obj' hrun' => ?_⟩
    cases obj with
    | none =>
      obtain ⟨hne', k', hkey', -, hwaiting⟩ := createName_used hstep mem_cons_self later hrun'
      obtain ⟨x, hx, hkeyx⟩ := hwaiting mem_cons_self
      exact ⟨hne', .inr ⟨rfl, x, hx, hkeyx.trans hkey'.symm⟩⟩
    | some o =>
      obtain ⟨hne', k', hkey', hsame, -⟩ := createName_used hstep mem_cons_self later hrun'
      exact ⟨hne', .inl (by rw [hkey, hkey', hsame k (update_self _ _ _)])⟩
  · rw [hrun]
    exact ⟨nofun, fun _ => hcause, nofun⟩

/-- Of the objects `0` to `3`, `1` has no hash, and `2` is equal to `0`, which is `inf`. -/
def objects : Library (Fin 4) (Fin 4) :=
  ⟨["if".toList], [], [("inf".toList, 0)], fun o => if o = 1 then none else some (o % 2)⟩

/-- A name made for no object can be associated; an object without a hash raises; and an object
that is equal to a builtin gets its name. -/
theorem createName_surprises : (¬ ∀ calls candidate obj later candidate' obj' name,
      ((named objects calls).createName objects candidate obj).2 = .returned name →
      ((named objects (calls ++ .createName candidate obj :: later)).createName objects candidate'
        obj').2 = .returned name → obj ≠ none) ∧
    (¬ ∀ calls candidate obj,
      ((named objects calls).createName objects candidate obj).2 = .raised → candidate = []) ∧
    ¬ ∀ calls candidate obj name o,
      ((named objects calls).createName objects candidate obj).2 = .returned name →
      objects.reserved name = some o → obj = some o := by
  refine ⟨fun h => ?_, fun h => ?_, fun h => ?_⟩
  · exact h [] "x".toList none [.associateNameWithObj "x".toList (some 3)] "y".toList (some 3)
      "x".toList (by decide) (by decide) rfl
  · exact absurd (h [] "x".toList (some 1) (by decide)) (by decide)
  · exact absurd (h [.createName "inf".toList (some 0)] "z".toList (some 2) "inf".toList 0
      (by decide) (by decide)) (by decide)

end Invariant

end PyTorchCore.Fx
