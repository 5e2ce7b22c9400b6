import PyTorchCore.Stores.FileStore
import PyTorchCore.Stores.TcpStore

/-!
# The stores agree

`HashStore`, `FileStore` and `TCPStore` return the same results call by call, unless a call opens
the file before it exists, or adds to a value that is not a number.
-/

namespace PyTorchCore.Stores

open Lib
open List
open TcpStore (Bytes Key Fd Server stoll)

section Property

universe u

variable {σ : Type u}

/-- What a client can see of a key: whether it is there and, if it is, its value. -/
def visible (M : Machine σ Call Outcome) (s : σ) (key : Key) : Outcome × Option Outcome :=
  let found := (M.step s (.check [key])).2
  (found, if found = .ready true then some (M.step s (.get key)).2 else none)

/-- A call that raises leaves the visible contents. -/
def KeepsContents (M : Machine σ Call Outcome) (s : σ) (call : Call) : Prop :=
  (M.step s call).2 = .raised → ∀ key, visible M (M.next s call) key = visible M s key

/-- The stores return the same results for a sequence of calls, and the calls that raise
leave the visible contents. -/
structure StoresAgree (present : Bool) (fd : Fd) (waitWorkers : Bool) (taken : Nat → Bool)
    (calls : List Call) : Prop where
  file : (fileStore present).outcomes (fileStore present).init calls =
    hashStore.outcomes hashStore.init calls
  tcp : (tcpStore fd waitWorkers taken).outcomes (tcpStore fd waitWorkers taken).init calls =
    hashStore.outcomes hashStore.init calls
  hashKeeps : hashStore.Admissible (KeepsContents hashStore) hashStore.init calls
  fileKeeps : (fileStore present).Admissible (KeepsContents (fileStore present))
    (fileStore present).init calls
  tcpKeeps : (tcpStore fd waitWorkers taken).Admissible
    (KeepsContents (tcpStore fd waitWorkers taken)) (tcpStore fd waitWorkers taken).init calls

/-- The sequences of calls that stores are made for. -/
def InDomain (calls : List Call) : Prop :=
  hashStore.Admissible (fun map call => inDomain map call = true) hashStore.init calls

instance (calls : List Call) : Decidable (InDomain calls) :=
  inferInstanceAs (Decidable (hashStore.Admissible _ _ _))

/-- The file is there when it is first opened without `O_CREAT`. -/
def fileReady (present : Bool) (calls : List Call) : Bool :=
  present || !(calls.head?.any Call.readsFile)

/-- Whenever `add` finds a value, it is a number. -/
def AddsNumbers (calls : List Call) : Prop :=
  hashStore.Admissible (fun map call => addsNumber map call = true) hashStore.init calls

instance (calls : List Call) : Decidable (AddsNumbers calls) :=
  inferInstanceAs (Decidable (hashStore.Admissible _ _ _))

end Property

section Simulation

variable {fd : Fd} {c : Nat} {map : Contents}

theorem hash_not_raised {call : Call} (hdomain : inDomain map call = true)
    (hnumber : addsNumber map call = true) : (HashStore.step map call).2 ≠ .raised := by
  cases call with
  | set key value => exact Outcome.noConfusion
  | compareSet key expectedValue desiredValue =>
    rw [HashStore.step, HashStore.compareSet]
    cases map.lookup key <;> dsimp only <;> split <;> exact Outcome.noConfusion
  | add key i =>
    have hsum : ∃ sum, sumWith i (map.bracket key).2 = some sum := by
      rw [bracket_snd]
      rw [addsNumber] at hnumber
      cases hlookup : map.lookup key with
      | none => exact ⟨i, if_pos rfl⟩
      | some value =>
        rw [hlookup] at hnumber
        obtain ⟨old, hold⟩ := Option.isSome_iff_exists.mp hnumber
        exact ⟨_, sumWith_of_number hold⟩
    obtain ⟨sum, hsum⟩ := hsum
    rw [HashStore.step, HashStore.add]
    simp only [hsum]
    exact Outcome.noConfusion
  | check keys => exact Outcome.noConfusion
  | get key =>
    obtain ⟨value, hvalue⟩ := mem_iff_lookup.mp (of_decide_eq_true hdomain)
    rw [HashStore.step, HashStore.get, hvalue]
    exact Outcome.noConfusion

variable {calls : List Call}

theorem agree_outcomes (present waitWorkers : Bool) (taken : Nat → Bool)
    {s : FileStore} {t : TcpClient}
    (hlogs : Logs map s) (hserves : Serves fd c map t.server)
    (hfile : calls.head?.any Call.readsFile = true → s.file ≠ none)
    (hdomain : hashStore.Admissible (fun map call => inDomain map call = true) map calls)
    (hkeys : ∀ call ∈ calls, call.keysFit = true)
    (hnumber : hashStore.Admissible (fun map call => addsNumber map call = true) map calls) :
    (fileStore present).outcomes s calls = hashStore.outcomes map calls ∧
      (tcpStore fd waitWorkers taken).outcomes t calls = hashStore.outcomes map calls ∧
      ∀ o ∈ hashStore.outcomes map calls, o ≠ .raised := by
  induction calls generalizing map s t with
  | nil => exact ⟨rfl, rfl, fun o ho => absurd ho not_mem_nil⟩
  | cons call calls ih =>
    obtain ⟨hfileOut, hlogs', hfile'⟩ := logs_step hlogs hdomain.1 (hkeys call mem_cons_self) hfile
    obtain ⟨htcpOut, hserves'⟩ := serves_step hserves hdomain.1 hnumber.1 (taken t.calls)
    obtain ⟨hfileRest, htcpRest, hrest⟩ := ih (t := (tcpStore fd waitWorkers taken).next t call)
      hlogs' hserves' (fun _ => hfile') hdomain.2
      (fun call hin => hkeys call (mem_cons_of_mem _ hin)) hnumber.2
    refine ⟨?_, ?_, fun o ho => ?_⟩
    · exact cons_eq_cons.mpr ⟨hfileOut, hfileRest⟩
    · exact cons_eq_cons.mpr ⟨htcpOut, htcpRest⟩
    · rcases mem_cons.mp ho with rfl | ho
      · exact hash_not_raised hdomain.1 hnumber.1
      · exact hrest o ho

theorem keeps_of_not_raised {σ : Type} (M : Machine σ Call Outcome) {s : σ}
    (h : ∀ o ∈ M.outcomes s calls, o ≠ .raised) : M.Admissible (KeepsContents M) s calls := by
  induction calls generalizing s with
  | nil => trivial
  | cons call calls ih =>
    exact ⟨fun hraised => absurd hraised (h _ mem_cons_self),
      ih (fun o ho => h o (mem_cons_of_mem _ ho))⟩

theorem numeric_of_keeps {waitWorkers : Bool} {taken : Nat → Bool} {t : TcpClient}
    (hserves : Serves fd c map t.server)
    (hdomain : hashStore.Admissible (fun map call => inDomain map call = true) map calls)
    (hkeeps : (tcpStore fd waitWorkers taken).Admissible
      (KeepsContents (tcpStore fd waitWorkers taken)) t calls) :
    hashStore.Admissible (fun map call => addsNumber map call = true) map calls := by
  induction calls generalizing map t with
  | nil => trivial
  | cons call calls ih =>
    cases hnumber : addsNumber map call with
    | true =>
      obtain ⟨_, hserves'⟩ := serves_step hserves hdomain.1 hnumber (taken t.calls)
      exact ⟨hnumber, ih (t := (tcpStore fd waitWorkers taken).next t call) hserves' hdomain.2
        hkeeps.2⟩
    | false =>
      exfalso
      obtain ⟨hraised, hclosed, key, i, value, _, hlookup, _⟩ :=
        closed_step hserves hnumber (taken t.calls)
      have hsame := congrArg Prod.fst (hkeeps.1 hraised key)
      have hbefore : (TcpClient.call fd (taken t.calls) t.server (.check [key])).2 =
          (HashStore.step map (.check [key])).2 := (serves_step hserves rfl rfl _).1
      have hafter := check_closed hclosed (taken (t.calls + 1)) [key]
      have hpresent : (HashStore.step map (.check [key])).2 = .ready true := by
        have hmem : key ∈ map := mem_iff_lookup.mpr ⟨value, hlookup⟩
        rw [HashStore.step, HashStore.check, all_cons, decide_eq_true hmem]
        rfl
      have heq : Outcome.raised = .ready true :=
        hafter.symm.trans (hsame.trans (hbefore.trans hpresent))
      cases heq

end Simulation

section Agreement

theorem logs_initial (present : Bool) : Logs ∅ (fileStore present).init := by
  have hcreated : (fileStore present).init.created = [] := by
    cases present <;> rfl
  refine ⟨[], fun _ h => absurd h not_mem_nil, Nat.zero_le _, ?_, fun _ => rfl⟩
  rw [hcreated]
  rfl

/-- The stores agree on a sequence of calls exactly if the file is there when it is needed
and `add` finds numbers only. -/
theorem stores_agree_iff (present : Bool) (fd : Fd) (waitWorkers : Bool) (taken : Nat → Bool)
    (calls : List Call) (hdomain : InDomain calls) (hkeys : ∀ call ∈ calls, call.keysFit = true) :
    StoresAgree present fd waitWorkers taken calls ↔
      fileReady present calls = true ∧ AddsNumbers calls := by
  have hserves := serves_start fd waitWorkers
  constructor
  · intro h
    refine ⟨?_, numeric_of_keeps hserves hdomain h.tcpKeeps⟩
    cases present with
    | true => rfl
    | false =>
      cases calls with
      | nil => rfl
      | cons call calls =>
        have hfirst := (cons_eq_cons.mp h.file).1
        cases call with
        | set key value => rfl
        | compareSet key expectedValue desiredValue => rfl
        | add key i => rfl
        | check keys => cases hfirst
        | get key => exact absurd hdomain.1 Bool.false_ne_true
  · rintro ⟨hready, hnumber⟩
    have hfile : calls.head?.any Call.readsFile = true → (fileStore present).init.file ≠ none := by
      intro hreads
      rw [fileReady, hreads, Bool.not_true, Bool.or_false] at hready
      rw [hready]
      exact Option.some_ne_none _
    obtain ⟨hfileOut, htcpOut, hraised⟩ := agree_outcomes present waitWorkers taken
      (t := (tcpStore fd waitWorkers taken).init) (logs_initial present) hserves hfile hdomain
      hkeys hnumber
    refine ⟨hfileOut, htcpOut, keeps_of_not_raised _ hraised, keeps_of_not_raised _ ?_,
      keeps_of_not_raised _ ?_⟩
    · rw [hfileOut]
      exact hraised
    · rw [htcpOut]
      exact hraised

/-- A counter, and a value that is replaced when it is the one that is expected. -/
def counterCalls : List Call :=
  [.add [97] 2, .check [[97], [98]], .add [97] (-5), .compareSet [98] [] [7],
    .compareSet [98] [6] [8], .get [97], .check [[97], [98]], .get [98]]

theorem stores_agree_counterCalls : StoresAgree false 4 true (fun _ => false) counterCalls :=
  (stores_agree_iff false 4 true (fun _ => false) counterCalls (by decide +kernel)
    (by decide +kernel)).mpr (by decide +kernel)

/-- An empty value counts as zero in memory and in the file, and raises at the server. -/
theorem empty_value_disagrees : ¬ ∀ present fd waitWorkers taken calls, InDomain calls →
    StoresAgree present fd waitWorkers taken calls := by
  intro h
  have hagree := h true 4 false (fun _ => false) [.set [97] [], .add [97] 1] (by decide +kernel)
  exact absurd hagree.tcp (by decide +kernel)

end Agreement

end PyTorchCore.Stores
