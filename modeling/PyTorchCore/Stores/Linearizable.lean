import PyTorchCore.Stores.SharedFile
import Mathlib.Algebra.Order.BigOperators.Group.List
import Mathlib.Data.List.TakeWhile

/-!
# FileStore is linearizable

The calls of any number of objects on one file return what one map returns that is updated in the
order of the locks.
-/

namespace PyTorchCore.Stores

open Lib
open Option List
open TcpStore (Bytes Key stoll toDecimal addInt64 isSpace isDigit splitSign decimal)

section Digits

theorem decimal_digits {k : Nat} {d : UInt8} (h : d ∈ decimal k) : 48 ≤ d.toNat ∧ d.toNat ≤ 57 := by
  obtain ⟨c, hc, rfl⟩ := mem_map.mp h
  rw [(toNat_digit hc).1]
  exact (toNat_digit hc).2

/-- A number has digits. -/
theorem decimal_ne_nil (k : Nat) : decimal k ≠ [] := by
  rw [decimal, ne_eq, map_eq_nil_iff]
  exact Nat.toDigits_ne_nil

theorem isDigit_decimal {k : Nat} {d : UInt8} (h : d ∈ decimal k) : isDigit d = true := by
  obtain ⟨hlow, hhigh⟩ := decimal_digits h
  exact decide_eq_true ⟨UInt8.le_iff_toNat_le.mpr hlow, UInt8.le_iff_toNat_le.mpr hhigh⟩

theorem takeWhile_decimal (k : Nat) : (decimal k).takeWhile isDigit = decimal k :=
  takeWhile_eq_self_iff.mpr (fun _ h => isDigit_decimal h)

theorem foldl_decimal (k : Nat) : (decimal k).foldl (fun m d => 10 * m + (d.toNat - 48)) 0 = k :=
  foldl_toDigits k

/-- A number is read back without a sign. -/
theorem splitSign_decimal (k : Nat) :
    splitSign ((decimal k).dropWhile isSpace) = (false, decimal k) := by
  cases hdecimal : decimal k with
  | nil => exact absurd hdecimal (decimal_ne_nil k)
  | cons d rest =>
    have hd : 48 ≤ d.toNat ∧ d.toNat ≤ 57 :=
      decimal_digits (hdecimal ▸ mem_cons_self)
    have hspace : isSpace d = false := by
      rw [isSpace, decide_eq_false_iff_not, UInt8.le_iff_toNat_le, UInt8.le_iff_toNat_le,
        ← UInt8.toNat_inj]
      have h32 : (32 : UInt8).toNat = 32 := rfl
      have h13 : (13 : UInt8).toNat = 13 := rfl
      omega
    rw [dropWhile_cons_of_neg (by rw [hspace]; exact Bool.false_ne_true)]
    have hminus : d ≠ 45 := by
      rintro rfl
      exact absurd hd.1 (by decide)
    have hplus : d ≠ 43 := by
      rintro rfl
      exact absurd hd.1 (by decide)
    unfold splitSign
    split
    · next heq => exact absurd (cons_eq_cons.mp heq).1 hminus
    · next heq => exact absurd (cons_eq_cons.mp heq).1 hplus
    · rfl

theorem stoll_toDecimal {value : Int} (h : isInt64 value = true) :
    stoll (toDecimal value) = some value := by
  obtain ⟨hlow, hhigh⟩ := of_decide_eq_true h
  cases value with
  | ofNat k =>
    have hrange : -2 ^ 63 ≤ ((k : Nat) : Int) ∧ ((k : Nat) : Int) < 2 ^ 63 := ⟨hlow, hhigh⟩
    simp only [stoll, toDecimal, splitSign_decimal, takeWhile_decimal, foldl_decimal,
      if_neg (decimal_ne_nil k), Bool.false_eq_true, if_false, if_pos hrange]
    rfl
  | negSucc k =>
    have hsplit : splitSign ((45 :: decimal (k + 1)).dropWhile isSpace) =
        (true, decimal (k + 1)) := rfl
    have hvalue : -(((k + 1 : Nat)) : Int) = Int.negSucc k := rfl
    simp only [stoll, toDecimal, hsplit, takeWhile_decimal, foldl_decimal,
      if_neg (decimal_ne_nil (k + 1)), if_true, hvalue]
    rw [if_pos ⟨hlow, hhigh⟩]

theorem isInt64_stoll {data : Bytes} {value : Int} (h : stoll data = some value) :
    isInt64 value = true := by
  obtain ⟨number, hnumber⟩ : ∃ number : Int, stoll data = if -2 ^ 63 ≤ number ∧ number < 2 ^ 63 then
      some number else none := by
    rw [stoll]
    dsimp only
    split
    · exact ⟨2 ^ 63, (if_neg (fun hrange => absurd hrange.2 (lt_irrefl _))).symm⟩
    · exact ⟨_, rfl⟩
  rw [hnumber] at h
  by_cases hrange : -2 ^ 63 ≤ number ∧ number < 2 ^ 63
  · rw [if_pos hrange] at h
    rw [← Option.some.inj h]
    exact decide_eq_true hrange
  · rw [if_neg hrange] at h
    cases h

theorem toDecimal_ne_nil (value : Int) : toDecimal value ≠ [] := by
  cases value with
  | ofNat k => exact decimal_ne_nil k
  | negSucc k => exact cons_ne_nil _ _

end Digits

section Calls

def Call.writes (key : Key) : Call → Bool
  | .set target _ => target = key
  | .compareSet target _ _ => target = key
  | .add target _ => target = key
  | .check _ => false
  | .get _ => false

def answers (key : Key) : List Call → List Outcome → List Outcome
  | call :: calls, outcome :: outcomes =>
    if call.writes key then outcome :: answers key calls outcomes
    else answers key calls outcomes
  | _, _ => []

/-- The value of a key; a key that is missing counts as empty. -/
def current (map : Option Contents) (key : Key) : Bytes :=
  ((map.getD ∅).lookup key).getD []

/-- The number that `add` starts from. -/
def numberAt (map : Option Contents) (key : Key) : Option Int :=
  if current map key = [] then some 0 else stoll (current map key)

def amounts (key : Key) (calls : List Call) : List Int :=
  calls.filterMap (fun call =>
    match call with
    | .add target i => if target = key then some i else none
    | _ => none)

/-- The values that `compareSet` is to give to a key. -/
def desired (key : Key) (calls : List Call) : List Bytes :=
  calls.filterMap (fun call =>
    match call with
    | .compareSet target _ desiredValue => if target = key then some desiredValue else none
    | _ => none)

/-- The sums of a number and the amounts, one after the other. -/
def runningTotals (n : Int) : List Int → List Int
  | [] => []
  | i :: amounts => (n + i) :: runningTotals (n + i) amounts

/-- Only `add` of a positive amount writes the key. -/
def OnlyAdds (key : Key) (calls : List Call) : Prop :=
  ∀ call ∈ calls, call.writes key = true → ∃ i, call = .add key i ∧ 0 < i

/-- Only `compareSet` from one value writes the key. -/
def OnlyCompareSets (key : Key) (expectedValue : Bytes) (calls : List Call) : Prop :=
  ∀ call ∈ calls, call.writes key = true → ∃ d, call = .compareSet key expectedValue d

variable {key : Key} {map : Option Contents} {call : Call} {calls : List Call}

/-- A call that does not write a key leaves its entries. -/
theorem lookup_of_not_writes (map : Option Contents) (h : call.writes key = false) :
    ((atomicStep map call).1.getD ∅).lookup key = (map.getD ∅).lookup key ∧
      (written (map.getD ∅) call).filter (fun entry => entry.1 = FileStore.regKey key) = [] := by
  have hother : ∀ target, decide (target = key) = false → key ≠ target ∧
      decide (FileStore.regKey target = FileStore.regKey key) = false := by
    intro target htarget
    have hne : target ≠ key := of_decide_eq_false htarget
    exact ⟨hne.symm, decide_eq_false (fun hreg => hne (regKey_injective.mp hreg))⟩
  rw [atomicStep]
  by_cases hmissing : (map.isNone && call.readsFile) = true
  · rw [if_pos hmissing]
    refine ⟨rfl, ?_⟩
    cases call with
    | set target value => cases (Bool.and_eq_true_iff.mp hmissing).2
    | compareSet target expectedValue desiredValue => cases (Bool.and_eq_true_iff.mp hmissing).2
    | add target i => cases (Bool.and_eq_true_iff.mp hmissing).2
    | check keys => rfl
    | get target => rfl
  · rw [if_neg hmissing]
    cases call with
    | set target value =>
      obtain ⟨hne, hreg⟩ := hother target h
      refine ⟨AList.lookup_insert_ne hne, ?_⟩
      rw [written, filter_cons_of_neg (by rw [hreg]; exact Bool.false_ne_true)]
      rfl
    | compareSet target expectedValue desiredValue =>
      obtain ⟨hne, hreg⟩ := hother target h
      refine ⟨?_, ?_⟩
      · show (HashStore.compareSet target expectedValue desiredValue (map.getD ∅)).1.lookup key = _
        rw [HashStore.compareSet]
        cases (map.getD ∅).lookup target with
        | none =>
          dsimp only
          split
          · exact AList.lookup_insert_ne hne
          · rfl
        | some value =>
          dsimp only
          split
          · exact AList.lookup_insert_ne hne
          · rfl
      · rw [written]
        split
        · rw [filter_cons_of_neg (by rw [hreg]; exact Bool.false_ne_true)]
          rfl
        · rfl
    | add target i =>
      obtain ⟨hne, hreg⟩ := hother target h
      refine ⟨?_, ?_⟩
      · show (HashStore.add target i (map.getD ∅)).1.lookup key = _
        rw [HashStore.add]
        dsimp only
        split
        · exact lookup_bracket key hne
        · rw [AList.lookup_insert_ne hne, lookup_bracket key hne]
      · rw [written]
        cases sumWith i (((map.getD ∅).lookup target).getD []) with
        | none => rfl
        | some ti =>
          rw [map_some, toList_some, filter_cons_of_neg (by rw [hreg]; exact Bool.false_ne_true)]
          rfl
    | check keys => exact ⟨rfl, rfl⟩
    | get target =>
      refine ⟨?_, rfl⟩
      show (HashStore.get target (map.getD ∅)).1.lookup key = _
      rw [HashStore.get]
      cases (map.getD ∅).lookup target <;> rfl

theorem current_of_not_writes (h : call.writes key = false) :
    current (atomicStep map call).1 key = current map key := by
  rw [current, (lookup_of_not_writes map h).1, current]

end Calls

section Counters

variable {key : Key} {map : Option Contents} {n i : Int} {calls : List Call}

theorem isInt64_numberAt (h : numberAt map key = some n) : isInt64 n = true := by
  rw [numberAt] at h
  split at h
  · rw [← Option.some.inj h]
    rfl
  · exact isInt64_stoll h

theorem sumWith_current (h : numberAt map key = some n) (hsum : isInt64 (n + i) = true) :
    sumWith i (current map key) = some (n + i) := by
  rw [numberAt] at h
  rw [sumWith]
  split at h
  · next hnil =>
      rw [if_pos hnil, ← Option.some.inj h, Int.zero_add]
  · next hne =>
      obtain ⟨hlow, hhigh⟩ := of_decide_eq_true hsum
      rw [if_neg hne, h, map_some, addInt64, Int.add_comm i n,
        Int.bmod_eq_of_le (by omega) (by omega)]

theorem atomicStep_add (h : numberAt map key = some n) (hsum : isInt64 (n + i) = true) :
    (atomicStep map (.add key i)).2 = .number (n + i) ∧
      numberAt (atomicStep map (.add key i)).1 key = some (n + i) := by
  have hreads : ¬ (map.isNone && Call.readsFile (.add key i)) = true := by
    show ¬ (map.isNone && false) = true
    rw [Bool.and_false]
    exact Bool.false_ne_true
  have hvalue : sumWith i ((map.getD ∅).bracket key).2 = some (n + i) := by
    rw [bracket_snd]
    exact sumWith_current h hsum
  rw [atomicStep, if_neg hreads]
  simp only [HashStore.step, HashStore.add, hvalue]
  refine ⟨trivial, ?_⟩
  have hcurrent :
    current (some ((((map.getD ∅).bracket key).1).insert key (toDecimal (n + i)))) key =
      toDecimal (n + i) := by
    rw [current, getD_some, AList.lookup_insert, getD_some]
  rw [numberAt, hcurrent, if_neg (toDecimal_ne_nil _), stoll_toDecimal hsum]

theorem amounts_of_not_writes {call : Call} (h : call.writes key = false) :
    amounts key (call :: calls) = amounts key calls := by
  cases call with
  | add target i =>
    have hne : target ≠ key := of_decide_eq_false h
    exact filterMap_cons_none (if_neg hne)
  | set target value => rfl
  | compareSet target expectedValue desiredValue => rfl
  | check keys => rfl
  | get target => rfl

/-- The remaining calls only add. -/
theorem OnlyAdds.tail {call : Call} (h : OnlyAdds key (call :: calls)) : OnlyAdds key calls :=
  fun later hin => h later (mem_cons_of_mem _ hin)

/-- The amounts that are added are positive. -/
theorem OnlyAdds.pos (h : OnlyAdds key calls) : ∀ i ∈ amounts key calls, 0 < i := by
  intro i hi
  obtain ⟨call, hcall, hsome⟩ := mem_filterMap.mp hi
  cases call with
  | add target amount =>
    dsimp only at hsome
    split at hsome
    · next heq =>
        obtain ⟨j, hj, hpos⟩ := h _ hcall (decide_eq_true heq)
        cases hj
        rw [← Option.some.inj hsome]
        exact hpos
    · cases hsome
  | set target value => cases hsome
  | compareSet target expectedValue desiredValue => cases hsome
  | check keys => cases hsome
  | get target => cases hsome

theorem adds_run (present : Bool) (honly : OnlyAdds key calls) (h : numberAt map key = some n)
    (hsum : n + (amounts key calls).sum < 2 ^ 63) :
    answers key calls ((atomicMap present).outcomes map calls) =
      (runningTotals n (amounts key calls)).map .number := by
  induction calls generalizing map n with
  | nil => rfl
  | cons call calls ih =>
    rw [Machine.outcomes, answers]
    cases hwrites : call.writes key with
    | false =>
      rw [amounts_of_not_writes hwrites] at hsum ⊢
      rw [if_neg Bool.false_ne_true]
      refine ih honly.tail ?_ hsum
      show numberAt (atomicStep map call).1 key = some n
      rw [numberAt, current_of_not_writes hwrites]
      exact h
    | true =>
      obtain ⟨i, rfl, hpos⟩ := honly call mem_cons_self hwrites
      have hamounts : amounts key (Call.add key i :: calls) = i :: amounts key calls :=
        filterMap_cons_some (if_pos rfl)
      have hrest : 0 ≤ (amounts key calls).sum :=
        sum_nonneg (fun j hj => (honly.tail.pos j hj).le)
      rw [hamounts, sum_cons] at hsum
      obtain ⟨hlow, hhigh⟩ := of_decide_eq_true (isInt64_numberAt h)
      have hint : isInt64 (n + i) = true := decide_eq_true ⟨by omega, by omega⟩
      obtain ⟨hout, hnumber⟩ := atomicStep_add h hint
      rw [if_pos rfl, hamounts]
      exact cons_eq_cons.mpr ⟨hout, ih honly.tail hnumber (by omega)⟩

variable {amounts : List Int}

theorem lt_runningTotals (h : ∀ i ∈ amounts, 0 < i) :
    ∀ total ∈ runningTotals n amounts, n < total := by
  induction amounts generalizing n with
  | nil => exact fun total hin => absurd hin not_mem_nil
  | cons i amounts ih =>
    have hi : 0 < i := h i mem_cons_self
    intro total hin
    rcases mem_cons.mp hin with rfl | hlater
    · omega
    · have hlt := ih (n := n + i) (fun j hj => h j (mem_cons_of_mem _ hj)) total hlater
      omega

theorem runningTotals_sorted (h : ∀ i ∈ amounts, 0 < i) :
    (runningTotals n amounts).Pairwise (· < ·) := by
  induction amounts generalizing n with
  | nil => exact Pairwise.nil
  | cons i amounts ih =>
    have hrest : ∀ j ∈ amounts, 0 < j := fun j hj => h j (mem_cons_of_mem _ hj)
    exact Pairwise.cons (lt_runningTotals hrest) (ih hrest)

end Counters

section Elections

variable {key : Key} {map : Option Contents} {expectedValue value : Bytes} {calls : List Call}

/-- The remaining calls only compare and set. -/
theorem OnlyCompareSets.tail {call : Call} (h : OnlyCompareSets key expectedValue (call :: calls)) :
    OnlyCompareSets key expectedValue calls :=
  fun later hin => h later (mem_cons_of_mem _ hin)

theorem desired_of_not_writes {call : Call} (h : call.writes key = false) :
    desired key (call :: calls) = desired key calls := by
  cases call with
  | compareSet target expectedValue desiredValue =>
    have hne : target ≠ key := of_decide_eq_false h
    exact filterMap_cons_none (if_neg hne)
  | set target value => rfl
  | add target i => rfl
  | check keys => rfl
  | get target => rfl

theorem desired_compareSet (d : Bytes) :
    desired key (.compareSet key expectedValue d :: calls) = d :: desired key calls :=
  filterMap_cons_some (if_pos rfl)

theorem atomicStep_compareSet (d : Bytes) : atomicStep map (.compareSet key expectedValue d) =
    (some (HashStore.compareSet key expectedValue d (map.getD ∅)).1,
      (HashStore.compareSet key expectedValue d (map.getD ∅)).2) := by
  have hreads : ¬ (map.isNone && Call.readsFile (.compareSet key expectedValue d)) = true := by
    show ¬ (map.isNone && false) = true
    rw [Bool.and_false]
    exact Bool.false_ne_true
  rw [atomicStep, if_neg hreads]
  rfl

theorem compareSet_wins (h : current map key = expectedValue) (d : Bytes) :
    (atomicStep map (.compareSet key expectedValue d)).2 = .bytes d ∧
      ((atomicStep map (.compareSet key expectedValue d)).1.getD ∅).lookup key = some d ∧
      written (map.getD ∅) (.compareSet key expectedValue d) = [(FileStore.regKey key, d)] := by
  have hstep : HashStore.compareSet key expectedValue d (map.getD ∅) =
      ((map.getD ∅).insert key d, .bytes d) := by
    rw [current] at h
    rw [HashStore.compareSet]
    cases hlookup : (map.getD ∅).lookup key with
    | none =>
      rw [hlookup] at h
      exact if_pos h.symm
    | some value =>
      rw [hlookup] at h
      exact if_pos h
  rw [atomicStep_compareSet, hstep]
  exact ⟨rfl, AList.lookup_insert _, if_pos h⟩

theorem compareSet_loses (h : (map.getD ∅).lookup key = some value) (hne : value ≠ expectedValue)
    (d : Bytes) :
    (atomicStep map (.compareSet key expectedValue d)).2 = .bytes value ∧
      ((atomicStep map (.compareSet key expectedValue d)).1.getD ∅).lookup key = some value ∧
      written (map.getD ∅) (.compareSet key expectedValue d) = [] := by
  have hstep : HashStore.compareSet key expectedValue d (map.getD ∅) =
      (map.getD ∅, .bytes value) := by
    rw [HashStore.compareSet, h]
    exact if_neg hne
  rw [atomicStep_compareSet, hstep]
  refine ⟨rfl, h, ?_⟩
  rw [written, h, getD_some, if_neg hne]

def entriesOf (key : Key) (entries : List (Key × Bytes)) : List (Key × Bytes) :=
  entries.filter (fun entry => entry.1 = FileStore.regKey key)

theorem entriesOf_logFrom_cons {call : Call} :
    entriesOf key (logFrom map (call :: calls)) = entriesOf key (written (map.getD ∅) call) ++
      entriesOf key (logFrom (atomicStep map call).1 calls) :=
  filter_append _ _

theorem compareSets_lost (present : Bool) (honly : OnlyCompareSets key expectedValue calls)
    (h : (map.getD ∅).lookup key = some value) (hne : value ≠ expectedValue) :
    (∀ o ∈ answers key calls ((atomicMap present).outcomes map calls), o = .bytes value) ∧
      entriesOf key (logFrom map calls) = [] := by
  induction calls generalizing map with
  | nil => exact ⟨fun o ho => absurd ho not_mem_nil, rfl⟩
  | cons call calls ih =>
    rw [Machine.outcomes, answers, entriesOf_logFrom_cons]
    cases hwrites : call.writes key with
    | false =>
      obtain ⟨hsame, hwritten⟩ := lookup_of_not_writes map hwrites
      obtain ⟨hall, hnone⟩ := ih honly.tail (hsame.trans h)
      rw [if_neg Bool.false_ne_true]
      exact ⟨hall, append_eq_nil_iff.mpr ⟨hwritten, hnone⟩⟩
    | true =>
      obtain ⟨d, rfl⟩ := honly call mem_cons_self hwrites
      obtain ⟨hout, hlookup, hwritten⟩ := compareSet_loses h hne d
      obtain ⟨hall, hnone⟩ := ih honly.tail hlookup
      rw [if_pos rfl, hwritten]
      refine ⟨fun o ho => ?_, hnone⟩
      rcases mem_cons.mp ho with rfl | hlater
      · exact hout
      · exact hall o hlater

theorem compareSets_run (present : Bool) (honly : OnlyCompareSets key expectedValue calls)
    (h : current map key = expectedValue) (hnew : expectedValue ∉ desired key calls)
    (hsome : desired key calls ≠ []) :
    ∃ d ∈ desired key calls,
      (∀ o ∈ answers key calls ((atomicMap present).outcomes map calls), o = .bytes d) ∧
        entriesOf key (logFrom map calls) = [(FileStore.regKey key, d)] := by
  induction calls generalizing map with
  | nil => exact absurd rfl hsome
  | cons call calls ih =>
    rw [Machine.outcomes, answers, entriesOf_logFrom_cons]
    cases hwrites : call.writes key with
    | false =>
      have hwritten := (lookup_of_not_writes map hwrites).2
      rw [desired_of_not_writes hwrites] at hnew hsome ⊢
      obtain ⟨d, hd, hall, hentries⟩ := ih honly.tail
        ((current_of_not_writes hwrites).trans h) hnew hsome
      rw [if_neg Bool.false_ne_true]
      refine ⟨d, hd, hall, ?_⟩
      rw [hentries, entriesOf, hwritten]
      rfl
    | true =>
      obtain ⟨d, rfl⟩ := honly call mem_cons_self hwrites
      rw [desired_compareSet] at hnew ⊢
      obtain ⟨hout, hlookup, hwritten⟩ := compareSet_wins h d
      obtain ⟨hall, hnone⟩ := compareSets_lost present honly.tail hlookup
        (fun heq => hnew (heq ▸ mem_cons_self))
      rw [if_pos rfl, hwritten]
      refine ⟨d, mem_cons_self, fun o ho => ?_, ?_⟩
      · rcases mem_cons.mp ho with rfl | hlater
        · exact hout
        · exact hall o hlater
      · rw [hnone, append_nil, entriesOf]
        exact filter_cons_of_pos (decide_eq_true rfl)

end Elections

section Linearizable

universe u

variable (ι : Type u) [DecidableEq ι]

/-- What any number of objects on one file keep to, in a run that is cut in two. -/
structure Linearizable (present : Bool) (before after : List (ι × Call)) : Prop where
  /-- Every call returns what a map returns that is updated in the order of the locks. -/
  outcomes : (sharedFile ι present).outcomes (sharedFile ι present).init (before ++ after) =
    (atomicMap present).outcomes (atomicMap present).init ((before ++ after).map Prod.snd)
  /-- The file is a log, and every object has read a part of it, up to an end of an entry. -/
  views : ∃ log, ((sharedFile ι present).exec (sharedFile ι present).init
      (before ++ after)).file.getD [] = writeEntries log ∧
    ∀ i, ∃ n, ReadsTo log
      (((sharedFile ι present).exec (sharedFile ι present).init (before ++ after)).view i) n
  /-- While a key is only counted up, the totals that `add` returns are all different. -/
  adds : ∀ key n, OnlyAdds key (after.map Prod.snd) →
    numberAt ((atomicMap present).exec (atomicMap present).init (before.map Prod.snd)) key =
      some n →
    n + (amounts key (after.map Prod.snd)).sum < 2 ^ 63 →
    answers key (after.map Prod.snd) ((sharedFile ι present).outcomes
        ((sharedFile ι present).exec (sharedFile ι present).init before) after) =
      (runningTotals n (amounts key (after.map Prod.snd))).map .number ∧
    (runningTotals n (amounts key (after.map Prod.snd))).Nodup
  /-- Of several `compareSet` calls from the current value to new ones, one writes, and all
  return what it wrote. -/
  compareSets : ∀ key expectedValue, OnlyCompareSets key expectedValue (after.map Prod.snd) →
    current ((atomicMap present).exec (atomicMap present).init (before.map Prod.snd)) key =
      expectedValue →
    expectedValue ∉ desired key (after.map Prod.snd) → desired key (after.map Prod.snd) ≠ [] →
    ∃ d ∈ desired key (after.map Prod.snd), ∃ entries,
      ((sharedFile ι present).exec (sharedFile ι present).init (before ++ after)).file.getD [] =
        ((sharedFile ι present).exec (sharedFile ι present).init before).file.getD [] ++
          writeEntries entries ∧
      entriesOf key entries = [(FileStore.regKey key, d)] ∧
      ∀ o ∈ answers key (after.map Prod.snd) ((sharedFile ι present).outcomes
        ((sharedFile ι present).exec (sharedFile ι present).init before) after), o = .bytes d

/-- The calls of any objects on one file, in any order. -/
theorem fileStore_linearizable (present : Bool) (before after : List (ι × Call))
    (hcalls : ∀ event ∈ before ++ after, event.2.fits = true) :
    Linearizable ι present before after := by
  have hbefore : ∀ event ∈ before, event.2.fits = true :=
    fun event hin => hcalls event (mem_append_left _ hin)
  have hafter : ∀ event ∈ after, event.2.fits = true :=
    fun event hin => hcalls event (mem_append_right _ hin)
  obtain ⟨_, hmiddle⟩ := exec_shares present before hbefore (shares_initial (ι := ι) present)
  obtain ⟨houtAfter, hlast⟩ := exec_shares present after hafter hmiddle
  obtain ⟨hout, hend⟩ := exec_shares present (before ++ after) hcalls
    (shares_initial (ι := ι) present)
  refine ⟨hout, ⟨_, hend.file, hend.reads⟩, ?_, ?_⟩
  · intro key n honly hnumber hsum
    have hsorted := runningTotals_sorted (n := n) honly.pos
    rw [houtAfter]
    exact ⟨adds_run present honly hnumber hsum, hsorted.imp (fun hlt => ne_of_lt hlt)⟩
  · intro key expectedValue honly hcurrent hnew hsome
    obtain ⟨d, hd, hall, hentries⟩ := compareSets_run present honly hcurrent hnew hsome
    refine ⟨d, hd, _, ?_, hentries, ?_⟩
    · rw [Machine.exec_append, hlast.file, hmiddle.file, writeEntries_append_log]
    · rw [houtAfter]
      exact hall

/-- Two objects that count a key up and want to give another one its first value. -/
theorem linearizable_twoObjects : Linearizable Bool false [(false, .add [97] 2)]
    [(true, .add [97] 3), (false, .get [97]), (true, .compareSet [98] [] [7]), (true, .add [97] 1),
      (false, .compareSet [98] [] [8])] :=
  fileStore_linearizable Bool false _ _ (by decide)

end Linearizable

section Limits

theorem get_cut {value : Bytes} (h : sized 4 value = [0, 0, 0, 0]) :
    (sharedFile Bool true).outcomes (sharedFile Bool true).init
      [(false, .set [97] value), (true, .get [97])] = [.done, .bytes []] := by
  have hnext : (sharedFile Bool true).next (sharedFile Bool true).init (false, .set [97] value) =
      { file := some ([2, 0, 0, 0, 47, 97] ++ [0, 0, 0, 0]),
        view := fun _ => { pos := 0, cache := ∅ } } := by
    have hview : ((sharedFile Bool true).next (sharedFile Bool true).init
        (false, .set [97] value)).view = fun _ => { pos := 0, cache := ∅ } :=
      Function.update_eq_self false _
    have hfile : ((sharedFile Bool true).next (sharedFile Bool true).init
        (false, .set [97] value)).file = some ([] ++ (sized 4 [47, 97] ++ sized 4 value)) := rfl
    rw [h] at hfile
    rw [← hview, show [2, 0, 0, 0, 47, 97] ++ [0, 0, 0, 0] = [] ++ (sized 4 [47, 97] ++
      ([0, 0, 0, 0] : Bytes)) from by decide, ← hfile]
  rw [Machine.outcomes, Machine.outcomes, hnext]
  refine cons_eq_cons.mpr ⟨rfl, ?_⟩
  decide +kernel

theorem sized_replicate : sized 4 (List.replicate (256 ^ 4) (1 : UInt8)) = [0, 0, 0, 0] := by
  rw [sized, length_replicate, Nat.mod_self, take_zero, append_nil]
  decide

/-- Totals repeat if nothing is added, a `compareSet` may change nothing, a placeholder may be
seen, `check` may raise, and a value of 4 GiB is cut. -/
theorem fileStore_limits : (sharedFile Bool true).outcomes (sharedFile Bool true).init
        [(false, .add [97] 0), (true, .add [97] 0)] = [.number 0, .number 0] ∧
      (sharedFile Bool true).outcomes (sharedFile Bool true).init
        [(false, .set [97] [1]), (false, .compareSet [97] [1] [1]),
          (true, .compareSet [97] [1] [2])] = [.done, .bytes [1], .bytes [2]] ∧
      (∃ s, (sharedFile Bool true).exec (sharedFile Bool true).init [(false, .add [97] 1)] = s ∧
        s.file = some (writeEntries [(FileStore.regKey [97], toDecimal 1)]) ∧
        (s.view false).pos = 0 ∧
        (s.view false).cache.lookup (FileStore.regKey [97]) = some [] ∧
        (readInto ∅ []).lookup (FileStore.regKey [97]) = none) ∧
      (sharedFile Bool false).outcomes (sharedFile Bool false).init [(false, .check [])] =
        [.raised] ∧
      (sharedFile Bool true).outcomes (sharedFile Bool true).init
        [(false, .set [97] (List.replicate (256 ^ 4) 1)), (true, .get [97])] =
        [.done, .bytes []] := by
  refine ⟨by decide +kernel, by decide +kernel, ⟨_, rfl, ?_, rfl, ?_, rfl⟩, by decide +kernel,
    get_cut sized_replicate⟩
  · decide +kernel
  · decide +kernel

end Limits

end PyTorchCore.Stores
