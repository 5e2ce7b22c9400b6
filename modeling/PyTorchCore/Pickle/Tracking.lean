import PyTorchCore.Pickle.Correspondence
import Mathlib.Data.Finset.Card

/-!
# The unpickler follows the pickler

`Tracks` relates a pickler to the unpickler that has run what the pickler has written: the memo
tables of the one lead to entries of the memo table of the other, and the objects of the placed
addresses are in memory. `Pushed` says what pushing values does.
-/

namespace PyTorchCore.Pickle

namespace Pickler

/-- The entry of a key. -/
def lookup (p : Pickler) : MemoKey → Option UInt32
  | .ivalue a => p.memoizedIvalues.lookup a
  | .global key => p.memoizedGlobals.lookup key
  | .string s => p.memoizedStrings.lookup s
  | .device s => p.memoizedDevices.lookup s

/-- A new entry for a key, with `pushNextBinPut`. -/
def remember (k : MemoKey) (p : Pickler) : Pickler :=
  let r := p.pushNextBinPut
  match k with
  | .ivalue a => { r.2 with memoizedIvalues := (a, r.1) :: r.2.memoizedIvalues }
  | .global key => { r.2 with memoizedGlobals := (key, r.1) :: r.2.memoizedGlobals }
  | .string s => { r.2 with memoizedStrings := (s, r.1) :: r.2.memoizedStrings }
  | .device s => { r.2 with memoizedDevices := (s, r.1) :: r.2.memoizedDevices }

end Pickler

/-- A longer memory has what the shorter one had. -/
theorem getElem?_mono {α : Type} {l l' : List α} (h : l <+: l') {i : Nat} {x : α}
    (hx : l[i]? = some x) : l'[i]? = some x := by
  obtain ⟨t, rfl⟩ := h
  exact (List.getElem?_append_left (List.getElem?_eq_some_iff.mp hx).1).trans hx

section Remember

variable {p : Pickler} {k k' : MemoKey} {i : Instruction}

@[simp] theorem lookup_push : (p.push i).lookup k = p.lookup k := by
  cases k <;> rfl

@[simp] theorem memoId_push : (p.push i).memoId = p.memoId := rfl

theorem lookup_cons {α : Type} [BEq α] [LawfulBEq α] [DecidableEq α] (a b : α) (id : UInt32)
    (table : List (α × UInt32)) :
    ((b, id) :: table).lookup a = if a = b then some id else table.lookup a := by
  by_cases h : a = b
  · rw [if_pos h, h, List.lookup_cons_self]
  · rw [if_neg h, List.lookup_cons, beq_eq_false_iff_ne.mpr h]

theorem lookup_remember :
    (p.remember k).lookup k' = if k' = k then some p.memoId else p.lookup k' := by
  cases k <;> cases k' <;>
    simp [Pickler.remember, Pickler.lookup, Pickler.pushNextBinPut, Pickler.push, lookup_cons]

theorem memoId_remember : (p.remember k).memoId = p.memoId + 1 := by
  cases k <;> rfl

theorem written_remember : (p.remember k).written = p.written ++
      [if p.memoId ≤ 255 then .binPut p.memoId.toUInt8 else .longBinPut p.memoId] := by
  cases k <;> rfl

end Remember

def MemoEntry (u : Unpickler) (φ : Placement) : MemoKey → Value → Prop
  | .ivalue a, w => ∃ q, φ a = some q ∧ w = .ref q
  | .string s, w => w = .string s
  | .device s, w => ∃ d, w = .device d ∧ Device.ofString s = some d
  | .global key, w => ∃ moduleName className f idx, key = Pickler.globalKey moduleName className ∧
      (10 : UInt8) ∉ moduleName ∧ (10 : UInt8) ∉ className ∧
      Unpickler.globalFunction moduleName className = some f ∧
      w = .int (Int64.ofNat idx) ∧ idx < 2 ^ 32 ∧ u.globals[idx]? = some f

section Tracking

variable (typeParser : Bytes → Option JitType) (useCount : Address → Nat) (root : IValue)

structure Tracks (p : Pickler) (u : Unpickler) (φ : Placement) : Prop where
  runs : ∃ is, p.written = .proto 2 :: is ∧ (∀ i ∈ is, i.Encodable ∧ i ≠ .stop) ∧
    Unpickler.execAll typeParser is {} = some u
  memoId : p.memoId = UInt32.ofNat u.memoTable.length
  counted : ∃ keys : Finset MemoKey, (∀ k, k ∈ keys ↔ p.lookup k ≠ none) ∧
    keys.card = u.memoTable.length ∧ ∀ k ∈ keys, k ∈ root.memoKeys useCount
  entries : ∀ k id, p.lookup k = some id →
    ∃ w, u.memoTable[id.toNat]? = some w ∧ MemoEntry u φ k w
  emptyTuple : ∀ q, u.emptyTuple = some q → u.heap[q]? = some (.tuple [])
  placed : ∀ a q, φ a = some q → ∃ v ∈ root.subvalues, v.address = some a ∧
    ∃ o, u.heap[q]? = some o ∧ ObjectCorresponds φ v o
  injective : ∀ a b q, φ a = some q → φ b = some q → a = b ∨ u.heap[q]? = some (.tuple [])

/-- The relation between the pushes of two values. -/
structure Ready (p : Pickler) (u : Unpickler) (φ : Placement) : Prop where
  tracks : Tracks typeParser useCount root p u φ
  globals_le : u.globals.length ≤ u.memoTable.length
  memoized : ∀ a, φ a ≠ none → 1 < useCount a → p.lookup (.ivalue a) ≠ none

structure Pushed (u : Unpickler) (φ : Placement) (values : List Value)
    (p' : Pickler) (u' : Unpickler) (φ' : Placement) : Prop where
  ready : Ready typeParser useCount root p' u' φ'
  stack : u'.stack = values.reverse ++ u.stack
  marks : u'.marks = u.marks
  heap : u.heap <+: u'.heap
  globals : u.globals <+: u'.globals
  places : φ.Extends φ'
  fresh : ∀ a q, φ' a = some q →
    φ a = some q ∨ u.heap.length ≤ q ∨ u'.heap[q]? = some (.tuple [])

end Tracking

section TrackingSteps

variable {typeParser : Bytes → Option JitType} {useCount : Address → Nat} {root : IValue}
variable {p p' : Pickler} {u u' : Unpickler} {φ φ' : Placement} {i : Instruction} {k : MemoKey}

/-- An entry of the memo stays right when more is built. -/
theorem MemoEntry.mono {w : Value} (hglobals : u.globals <+: u'.globals) (hφ : φ.Extends φ')
    (h : MemoEntry u φ k w) : MemoEntry u' φ' k w := by
  cases k with
  | ivalue a =>
    obtain ⟨q, hq, rfl⟩ := h
    exact ⟨q, hφ a q hq, rfl⟩
  | string s => exact h
  | device s => exact h
  | global key =>
    obtain ⟨m, c, f, idx, hkey, hm, hc, hf, hw, hlt, hidx⟩ := h
    exact ⟨m, c, f, idx, hkey, hm, hc, hf, hw, hlt, getElem?_mono hglobals hidx⟩

theorem Tracks.runs_push (h : Tracks typeParser useCount root p u φ)
    (hexec : u.exec typeParser i = some u') (hencodable : i.Encodable) (hstop : i ≠ .stop) :
    ∃ is, (p.push i).written = .proto 2 :: is ∧ (∀ i ∈ is, i.Encodable ∧ i ≠ .stop) ∧
      Unpickler.execAll typeParser is {} = some u' := by
  obtain ⟨is, hwritten, his, hrun⟩ := h.runs
  refine ⟨is ++ [i], ?_, ?_, ?_⟩
  · rw [Pickler.push, hwritten, List.cons_append]
  · intro j hj
    rcases List.mem_append.mp hj with hj | hj
    · exact his j hj
    · rw [List.mem_singleton.mp hj]
      exact ⟨hencodable, hstop⟩
  · rw [Unpickler.execAll_append, hrun, Option.bind_some]
    simp only [Unpickler.execAll, List.foldlM_cons, hexec, List.foldlM_nil]
    rfl

/-- An instruction that leaves the memo alone keeps the books. -/
theorem Tracks.step (h : Tracks typeParser useCount root p u φ)
    (hexec : u.exec typeParser i = some u') (hencodable : i.Encodable) (hstop : i ≠ .stop)
    (hmemo : u'.memoTable = u.memoTable) (hglobals : u.globals <+: u'.globals)
    (hempty : ∀ q, u'.emptyTuple = some q → u'.heap[q]? = some (.tuple []))
    (hheap : ∀ a q, φ a = some q → u'.heap[q]? = u.heap[q]?) :
    Tracks typeParser useCount root (p.push i) u' φ where
  runs := h.runs_push hexec hencodable hstop
  memoId := by rw [memoId_push, h.memoId, hmemo]
  counted := by
    obtain ⟨keys, hkeys, hcard, huniverse⟩ := h.counted
    exact ⟨keys, fun k => by rw [lookup_push, hkeys], by rw [hcard, hmemo], huniverse⟩
  entries := by
    intro k id hk
    obtain ⟨w, hw, hentry⟩ := h.entries k id hk
    exact ⟨w, by rw [hmemo, hw], hentry.mono hglobals fun _ _ hq => hq⟩
  emptyTuple := hempty
  placed := by
    intro a q hq
    obtain ⟨v, hv, ha, o, ho, hobj⟩ := h.placed a q hq
    exact ⟨v, hv, ha, o, by rw [hheap a q hq, ho], hobj⟩
  injective := by
    intro a b q ha hb
    rw [hheap a q ha]
    exact h.injective a b q ha hb

theorem Tracks.memoTable_lt (h : Tracks typeParser useCount root p u φ)
    (hfits : root.MemoFits useCount) (hnew : p.lookup k = none)
    (hk : k ∈ root.memoKeys useCount) : u.memoTable.length < 2 ^ 32 := by
  obtain ⟨keys, hkeys, hcard, huniverse⟩ := h.counted
  have hnot : k ∉ keys := fun hmem => (hkeys k).mp hmem hnew
  have hsub : insert k keys ⊆ (root.memoKeys useCount).dedup.toFinset := by
    intro k' hk'
    rw [List.mem_toFinset, List.mem_dedup]
    rcases Finset.mem_insert.mp hk' with rfl | hk'
    · exact hk
    · exact huniverse k' hk'
  have hle : (insert k keys).card ≤ (root.memoKeys useCount).dedup.length :=
    (Finset.card_le_card hsub).trans (List.toFinset_card_le _)
  rw [Finset.card_insert_of_notMem hnot, hcard] at hle
  exact Nat.lt_of_lt_of_le hle hfits

variable {stack : List Value} {f : GlobalFunction} {top : Value}

theorem exec_put (hstack : u.stack = top :: stack)
    (hlt : u.memoTable.length < 2 ^ 32) (hid : p.memoId = UInt32.ofNat u.memoTable.length) :
    u.exec typeParser (if p.memoId ≤ 255 then .binPut p.memoId.toUInt8 else .longBinPut p.memoId) =
      some { u with memoTable := u.memoTable ++ [top] } := by
  have htoNat : p.memoId.toNat = u.memoTable.length := by
    rw [hid]
    exact UInt32.toNat_ofNat_of_lt' hlt
  have hset : u.setInput u.memoTable.length =
      some { u with memoTable := u.memoTable ++ [top] } := by
    simp [Unpickler.setInput, hstack]
  split
  · next hsmall =>
      have hbyte : p.memoId.toUInt8.toNat = u.memoTable.length := by
        have hle : p.memoId.toNat ≤ 255 := UInt32.le_iff_toNat_le.mp hsmall
        rw [UInt32.toNat_toUInt8, htoNat]
        omega
      rw [← hset, ← hbyte]
      rfl
  · rw [← hset, ← htoNat]
    rfl

/-- The top of the stack is put into the memo. -/
theorem Tracks.remember (h : Tracks typeParser useCount root p u φ)
    (hfits : root.MemoFits useCount)
    (hstack : u.stack = top :: stack) (hnew : p.lookup k = none)
    (hk : k ∈ root.memoKeys useCount) (hentry : MemoEntry u φ k top) :
    Tracks typeParser useCount root (p.remember k)
      { u with memoTable := u.memoTable ++ [top] } φ := by
  have hlt := h.memoTable_lt hfits hnew hk
  have hput : u.exec typeParser _ = _ := exec_put hstack hlt h.memoId
  have htoNat : p.memoId.toNat = u.memoTable.length := by
    rw [h.memoId]
    exact UInt32.toNat_ofNat_of_lt' hlt
  refine ⟨?_, ?_, ?_, ?_, h.emptyTuple, h.placed, h.injective⟩
  · have hruns := h.runs_push hput (by split <;> trivial) (by split <;> exact fun hc => nomatch hc)
    rw [written_remember]
    exact hruns
  · rw [memoId_remember, h.memoId, List.length_append, List.length_singleton, UInt32.ofNat_add]
    rfl
  · obtain ⟨keys, hkeys, hcard, huniverse⟩ := h.counted
    refine ⟨insert k keys, fun k' => ?_, ?_, fun k' hk' => ?_⟩
    · rw [lookup_remember, Finset.mem_insert, hkeys]
      by_cases heq : k' = k <;> simp [heq]
    · have hnot : k ∉ keys := fun hmem => (hkeys k).mp hmem hnew
      rw [Finset.card_insert_of_notMem hnot, hcard, List.length_append, List.length_singleton]
    · rcases Finset.mem_insert.mp hk' with rfl | hk'
      · exact hk
      · exact huniverse k' hk'
  · intro k' id hlookup
    rw [lookup_remember] at hlookup
    by_cases heq : k' = k
    · rw [if_pos heq] at hlookup
      cases hlookup
      refine ⟨top, ?_, heq ▸ hentry⟩
      rw [htoNat]
      exact List.getElem?_concat_length
    · rw [if_neg heq] at hlookup
      obtain ⟨w, hw, hold⟩ := h.entries k' id hlookup
      exact ⟨w, getElem?_mono (List.prefix_append _ _) hw, hold⟩

/-- An instruction that leaves memo and globals alone. -/
theorem Ready.step (h : Ready typeParser useCount root p u φ)
    (hexec : u.exec typeParser i = some u') (hencodable : i.Encodable) (hstop : i ≠ .stop)
    (hmemo : u'.memoTable = u.memoTable) (hglobals : u'.globals = u.globals)
    (hempty : u'.emptyTuple = u.emptyTuple) (hheap : u.heap <+: u'.heap) :
    Ready typeParser useCount root (p.push i) u' φ where
  tracks := by
    refine h.tracks.step hexec hencodable hstop hmemo (hglobals ▸ List.prefix_refl _) ?_ ?_
    · intro q hq
      rw [hempty] at hq
      exact getElem?_mono hheap (h.tracks.emptyTuple q hq)
    · intro a q hq
      obtain ⟨-, -, -, o, ho, -⟩ := h.tracks.placed a q hq
      rw [ho]
      exact getElem?_mono hheap ho
  globals_le := by rw [hglobals, hmemo]; exact h.globals_le
  memoized := by
    intro a ha hshared
    rw [lookup_push]
    exact h.memoized a ha hshared

/-- Remembering the top of the stack. -/
theorem Ready.remember (h : Ready typeParser useCount root p u φ)
    (hfits : root.MemoFits useCount)
    (hstack : u.stack = top :: stack) (hnew : p.lookup k = none)
    (hk : k ∈ root.memoKeys useCount) (hentry : MemoEntry u φ k top) :
    Ready typeParser useCount root (p.remember k)
      { u with memoTable := u.memoTable ++ [top] } φ where
  tracks := h.tracks.remember hfits hstack hnew hk hentry
  globals_le := by
    rw [List.length_append]
    exact Nat.le_add_right_of_le h.globals_le
  memoized := by
    intro a ha hshared
    rw [lookup_remember]
    split
    · exact Option.some_ne_none _
    · exact h.memoized a ha hshared

theorem Pushed.refl (h : Ready typeParser useCount root p u φ) :
    Pushed typeParser useCount root u φ [] p u φ :=
  ⟨h, rfl, rfl, List.prefix_refl _, List.prefix_refl _, fun _ _ hq => hq,
    fun _ _ hq => Or.inl hq⟩

variable {values values' : List Value}

theorem Pushed.trans {u'' : Unpickler} {φ'' : Placement}
    {p'' : Pickler} (h : Pushed typeParser useCount root u φ values p' u' φ')
    (h' : Pushed typeParser useCount root u' φ' values' p'' u'' φ'') :
    Pushed typeParser useCount root u φ (values ++ values') p'' u'' φ'' where
  ready := h'.ready
  stack := by rw [h'.stack, h.stack, List.reverse_append, List.append_assoc]
  marks := h'.marks.trans h.marks
  heap := h.heap.trans h'.heap
  globals := h.globals.trans h'.globals
  places := fun a q hq => h'.places a q (h.places a q hq)
  fresh := by
    intro a q hq
    rcases h'.fresh a q hq with hold | hle | hempty
    · rcases h.fresh a q hold with hfirst | hle | hempty
      · exact Or.inl hfirst
      · exact Or.inr (Or.inl hle)
      · exact Or.inr (Or.inr (getElem?_mono h'.heap hempty))
    · exact Or.inr (Or.inl (h.heap.length_le.trans hle))
    · exact Or.inr (Or.inr hempty)
section

variable (h : Ready typeParser useCount root p u φ)
include h

/-- An instruction that pushes one value. -/
theorem Ready.pushValue {w : Value}
    (hexec : u.exec typeParser i = some (u.pushValue w)) (hencodable : i.Encodable)
    (hstop : i ≠ .stop) :
    Pushed typeParser useCount root u φ [w] (p.push i) (u.pushValue w) φ :=
  ⟨h.step hexec hencodable hstop rfl rfl rfl (List.prefix_refl _), rfl, rfl,
    List.prefix_refl _, List.prefix_refl _, fun _ _ hq => hq, fun _ _ hq => Or.inl hq⟩

theorem pushBinGet_pushed {id : UInt32} {w : Value} (hw : u.memoTable[id.toNat]? = some w) :
    Pushed typeParser useCount root u φ [w] (p.pushBinGet id) (u.pushValue w) φ := by
  refine h.pushValue ?_ (by split <;> trivial) (by split <;> exact fun hc => nomatch hc)
  split
  · next hsmall =>
      have hbyte : id.toUInt8.toNat = id.toNat := by
        have hle : id.toNat ≤ 255 := UInt32.le_iff_toNat_le.mp hsmall
        rw [UInt32.toNat_toUInt8]
        omega
      simp [Unpickler.exec, hbyte, hw]
  · simp only [Unpickler.exec, hw, Option.map_some]

theorem pushInt_pushed (n : Int64) :
    Pushed typeParser useCount root u φ [.int n] (p.pushInt n) (u.pushValue (.int n)) φ := by
  have hofNat : 0 ≤ n.toInt → Int64.ofNat n.toInt.toNat = n := by
    intro hn
    rw [← Int64.ofInt_eq_ofNat, Int.toNat_of_nonneg hn, Int64.ofInt_toInt]
  rw [Pickler.pushInt]
  split
  · next hn =>
      have hvalue : (UInt8.ofNat n.toInt.toNat).toNat = n.toInt.toNat :=
        UInt8.toNat_ofNat_of_lt' (by have := hn.2; show n.toInt.toNat < 256; omega)
      refine h.pushValue ?_ trivial (fun hc => nomatch hc)
      rw [Unpickler.exec, hvalue, hofNat hn.1]
  · split
    · next hn =>
        have hvalue : (UInt16.ofNat n.toInt.toNat).toNat = n.toInt.toNat :=
          UInt16.toNat_ofNat_of_lt' (by have := hn.2; show n.toInt.toNat < 65536; omega)
        refine h.pushValue ?_ trivial (fun hc => nomatch hc)
        rw [Unpickler.exec, hvalue, hofNat hn.1]
    · split
      · next hn =>
          have hvalue : (Int32.ofInt n.toInt).toUInt32.toInt32.toInt = n.toInt := by
            rw [Int32.toInt32_toUInt32, Int32.toInt_ofInt_of_le (by omega) (by omega)]
          refine h.pushValue ?_ trivial (fun hc => nomatch hc)
          rw [Unpickler.exec, hvalue, Int64.ofInt_toInt]
      · refine h.pushValue ?_ trivial (fun hc => nomatch hc)
        rw [Unpickler.exec, Int64.toInt64_toUInt64]

theorem pushDouble_pushed (bits : UInt64) :
    Pushed typeParser useCount root u φ [.double bits] (p.pushDouble bits)
      (u.pushValue (.double bits)) φ :=
  h.pushValue rfl trivial fun hc => nomatch hc

theorem pushBool_pushed (b : Bool) :
    Pushed typeParser useCount root u φ [.bool b] (p.pushBool b) (u.pushValue (.bool b)) φ := by
  cases b <;> exact h.pushValue rfl trivial fun hc => nomatch hc

theorem pushString_pushed (hfits : root.MemoFits useCount) {s : Bytes} (hs : s.length < 2 ^ 32)
    (hk : .string s ∈ root.memoKeys useCount) :
    ∃ u', Pushed typeParser useCount root u φ [.string s] (p.pushString s) u' φ := by
  cases hlookup : p.lookup (.string s) with
  | some id =>
    obtain ⟨w, hw, rfl⟩ := h.tracks.entries _ _ hlookup
    have hpush : p.pushString s = p.pushBinGet id := by
      simp only [Pickler.pushString, show p.memoizedStrings.lookup s = some id from hlookup]
    rw [hpush]
    exact ⟨_, pushBinGet_pushed h hw⟩
  | none =>
    have hpush : p.pushString s = (p.push (.binUnicode s)).remember (.string s) := by
      simp only [Pickler.pushString, show p.memoizedStrings.lookup s = none from hlookup]
      rfl
    have hread := h.pushValue (i := .binUnicode s) rfl hs fun hc => nomatch hc
    have hput := hread.ready.remember hfits rfl (k := .string s)
      (by rw [lookup_push, hlookup]) hk rfl
    rw [hpush]
    exact ⟨_, hput, rfl, rfl, List.prefix_refl _, List.prefix_refl _, fun _ _ hq => hq,
      fun _ _ hq => Or.inl hq⟩

end

theorem globalKey_inj {moduleName className moduleName' className' : Bytes}
    (hm : (10 : UInt8) ∉ moduleName) (hc : (10 : UInt8) ∉ className)
    (hm' : (10 : UInt8) ∉ moduleName') (hc' : (10 : UInt8) ∉ className')
    (h : Pickler.globalKey moduleName className = Pickler.globalKey moduleName' className') :
    moduleName = moduleName' ∧ className = className' := by
  have hread := readString_newline hm (className ++ ascii "\n")
  have hread' := readString_newline hm' (className' ++ ascii "\n")
  rw [Pickler.globalKey, Pickler.globalKey] at h
  rw [h, hread'] at hread
  obtain ⟨hmodule, hrest⟩ := Prod.mk.inj (Option.some.inj hread)
  have hclass := readString_newline hc []
  have hclass' := readString_newline hc' []
  rw [← hrest, hclass'] at hclass
  exact ⟨hmodule.symm, (Prod.mk.inj (Option.some.inj hclass)).1.symm⟩

variable {moduleName className : Bytes}

theorem pushGlobal_pushed (h : Ready typeParser useCount root p u φ)
    (hfits : root.MemoFits useCount)
    (hf : Unpickler.globalFunction moduleName className = some f)
    (hm : (10 : UInt8) ∉ moduleName) (hc : (10 : UInt8) ∉ className)
    (hk : .global (Pickler.globalKey moduleName className) ∈ root.memoKeys useCount) :
    ∃ u' idx, Pushed typeParser useCount root u φ [.int (Int64.ofNat idx)]
        (p.pushGlobal moduleName className) u' φ ∧ idx < 2 ^ 32 ∧ u'.globals[idx]? = some f := by
  cases hlookup : p.lookup (.global (Pickler.globalKey moduleName className)) with
  | some id =>
    obtain ⟨w, hw, m, c, g, idx, hkey, hm', hc', hg, rfl, hlt, hidx⟩ :=
      h.tracks.entries _ _ hlookup
    obtain ⟨rfl, rfl⟩ := globalKey_inj hm hc hm' hc' hkey
    rw [hf] at hg
    cases hg
    have hpush : p.pushGlobal moduleName className = p.pushBinGet id := by
      simp only [Pickler.pushGlobal, show p.memoizedGlobals.lookup _ = some id from hlookup]
    rw [hpush]
    exact ⟨_, idx, pushBinGet_pushed h hw, hlt, hidx⟩
  | none =>
    have hpush : p.pushGlobal moduleName className =
        (p.push (.global moduleName className)).remember
          (.global (Pickler.globalKey moduleName className)) := by
      simp only [Pickler.pushGlobal, show p.memoizedGlobals.lookup _ = none from hlookup]
      rfl
    have hexec : u.exec typeParser (.global moduleName className) = some { u with
          globals := u.globals ++ [f]
          stack := .int (Int64.ofNat u.globals.length) :: u.stack } := by
      rw [Unpickler.exec, Unpickler.readGlobal, hf, Option.map_some]
    have hlt : u.globals.length < 2 ^ 32 :=
      Nat.lt_of_le_of_lt h.globals_le (h.tracks.memoTable_lt hfits hlookup hk)
    have hidx : (u.globals ++ [f])[u.globals.length]? = some f := List.getElem?_concat_length
    have hread := h.tracks.step hexec ⟨hm, hc⟩ (fun hc => nomatch hc) rfl
      (List.prefix_append _ _) h.tracks.emptyTuple (fun _ _ _ => rfl)
    have hput := hread.remember hfits rfl (k := .global (Pickler.globalKey moduleName className))
      (by rw [lookup_push, hlookup]) hk
      ⟨moduleName, className, f, u.globals.length, rfl, hm, hc, hf, rfl, hlt, hidx⟩
    have hready : Ready typeParser useCount root _ _ φ :=
      ⟨hput, by
        rw [List.length_append, List.length_append, List.length_singleton, List.length_singleton]
        exact Nat.succ_le_succ h.globals_le, by
        intro a ha hshared
        rw [lookup_remember, lookup_push]
        split
        · exact Option.some_ne_none _
        · exact h.memoized a ha hshared⟩
    rw [hpush]
    exact ⟨_, u.globals.length, ⟨hready, rfl, rfl, List.prefix_refl _, List.prefix_append _ _,
      fun _ _ hq => hq, fun _ _ hq => Or.inl hq⟩, hlt, hidx⟩

theorem exec_reduce {arg : Value} {idx : Nat}
    (hstack : u.stack = arg :: .int (Int64.ofNat idx) :: stack) (hlt : idx < 2 ^ 32)
    (hidx : u.globals[idx]? = some f) :
    u.exec typeParser .reduce =
      Unpickler.callGlobal typeParser f { u with stack := arg :: stack } := by
  have hint : (Int64.ofNat idx).toInt = idx := Int64.toInt_ofNat_of_lt (by omega)
  simp [Unpickler.exec, Unpickler.reduce, hstack, hint, hidx]

theorem exec_reduce_tuple (typeParser : Bytes → Option JitType) (args stack : List Value)
    {idx : Nat} (hlt : idx < 2 ^ 32) (hidx : u.globals[idx]? = some f) :
    ∃ called : Unpickler, (Unpickler.pushObject (.tuple args)
          { u with stack := .int (Int64.ofNat idx) :: stack }).exec typeParser .reduce =
        Unpickler.callGlobal typeParser f called ∧
      called.popTuple = some (args,
        { u with heap := u.heap ++ [.tuple args], stack := stack }) := by
  refine ⟨_, exec_reduce rfl hlt hidx, ?_⟩
  simp only [Unpickler.popTuple, Unpickler.pushObject, List.getElem?_concat_length]

/-- Values on top of the stack that are replaced by others. -/
theorem Pushed.replace {p'' : Pickler} {u'' : Unpickler}
    (h : Pushed typeParser useCount root u φ values p' u' φ')
    (hready : Ready typeParser useCount root p'' u'' φ')
    (hstack : u''.stack = values'.reverse ++ u.stack) (hmarks : u''.marks = u'.marks)
    (hheap : u'.heap <+: u''.heap) (hglobals : u'.globals <+: u''.globals) :
    Pushed typeParser useCount root u φ values' p'' u'' φ' where
  ready := hready
  stack := hstack
  marks := hmarks.trans h.marks
  heap := h.heap.trans hheap
  globals := h.globals.trans hglobals
  places := h.places
  fresh := fun a q hq => (h.fresh a q hq).imp_right (Or.imp_right (getElem?_mono hheap))

theorem lookup_pushString {s : Bytes} (hk : k ≠ .string s) :
    (p.pushString s).lookup k = p.lookup k := by
  cases hlookup : p.memoizedStrings.lookup s with
  | some id => simp [Pickler.pushString, hlookup, Pickler.pushBinGet]
  | none =>
    have hpush : p.pushString s = (p.push (.binUnicode s)).remember (.string s) := by
      simp only [Pickler.pushString, hlookup]
      rfl
    rw [hpush, lookup_remember, if_neg hk, lookup_push]

theorem lookup_pushGlobal (hk : k ≠ .global (Pickler.globalKey moduleName className)) :
    (p.pushGlobal moduleName className).lookup k = p.lookup k := by
  cases hlookup : p.memoizedGlobals.lookup (Pickler.globalKey moduleName className) with
  | some id => simp [Pickler.pushGlobal, hlookup, Pickler.pushBinGet]
  | none =>
    have hpush : p.pushGlobal moduleName className =
        (p.push (.global moduleName className)).remember
          (.global (Pickler.globalKey moduleName className)) := by
      simp only [Pickler.pushGlobal, hlookup]
      rfl
    rw [hpush, lookup_remember, if_neg hk, lookup_push]

/-- In front of the call, the string of the device is the argument of the constructor. -/
theorem device_argument (h : Ready typeParser useCount root p u φ)
    (hfits : root.MemoFits useCount) {d : Device} (hs : d.str.length < 2 ^ 32)
    (hk : ∀ k ∈ (IValue.device d).ownKeys, k ∈ root.memoKeys useCount) :
    ∃ u₂ u₃ called, Ready typeParser useCount root
        (((p.pushGlobal (ascii "torch") (ascii "device")).pushString d.str).push .tuple1) u₃ φ ∧
      u₃ = Unpickler.pushObject (.tuple [.string d.str]) { u₂ with stack := u₃.stack.tail } ∧
      u₃.exec typeParser .reduce = Unpickler.callGlobal typeParser .device called ∧
      called.popTuple = some ([.string d.str],
        { u₂ with heap := u₂.heap ++ [.tuple [.string d.str]], stack := u.stack }) ∧
      ∃ values, Pushed typeParser useCount root u φ values
        ((p.pushGlobal (ascii "torch") (ascii "device")).pushString d.str) u₂ φ := by
  simp only [IValue.ownKeys, List.mem_cons, List.not_mem_nil, or_false, forall_eq_or_imp,
    forall_eq] at hk
  obtain ⟨u₁, idx, hglobal, hlt, hidx⟩ := pushGlobal_pushed h hfits (f := .device)
    rfl (by decide) (by decide) hk.1
  obtain ⟨u₂, hstring⟩ := pushString_pushed hglobal.ready hfits hs hk.2.1
  have hboth := hglobal.trans hstring
  have hstack : u₂.stack = .string d.str :: .int (Int64.ofNat idx) :: u.stack := hboth.stack
  have htuple : u₂.exec typeParser .tuple1 = some (Unpickler.pushObject
      (.tuple [.string d.str]) { u₂ with stack := .int (Int64.ofNat idx) :: u.stack }) := by
    simp only [Unpickler.exec, hstack]
  have hready := hboth.ready.step htuple trivial (fun hc => nomatch hc) rfl rfl rfl
    (List.prefix_append _ _)
  obtain ⟨called, hreduce, hargs⟩ := exec_reduce_tuple typeParser [.string d.str] u.stack hlt
    (getElem?_mono hstring.globals hidx)
  exact ⟨u₂, _, called, hready, rfl, hreduce, hargs, _, hboth⟩

theorem pushDevice_of_new {d : Device} (hlookup : p.lookup (.device d.str) = none) :
    p.pushDevice d = ((((p.pushGlobal (ascii "torch") (ascii "device")).pushString
      d.str).push .tuple1).push .reduce).remember (.device d.str) := by
  simp only [Pickler.pushDevice, show p.memoizedDevices.lookup d.str = none from hlookup]
  rfl

theorem pushDevice_pushed (h : Ready typeParser useCount root p u φ)
    (hfits : root.MemoFits useCount) {d : Device} (hd : ¬ d.Unreadable)
    (hs : d.str.length < 2 ^ 32)
    (hk : ∀ k ∈ (IValue.device d).ownKeys, k ∈ root.memoKeys useCount) :
    ∃ u', Pushed typeParser useCount root u φ [.device d] (p.pushDevice d) u' φ := by
  have hread : Device.ofString d.str = some d := by rw [ofString_str, if_neg hd]
  cases hlookup : p.lookup (.device d.str) with
  | some id =>
    obtain ⟨w, hw, d', rfl, hd'⟩ := h.tracks.entries _ _ hlookup
    rw [hread] at hd'
    cases hd'
    have hpush : p.pushDevice d = p.pushBinGet id := by
      simp only [Pickler.pushDevice, show p.memoizedDevices.lookup d.str = some id from hlookup]
    rw [hpush]
    exact ⟨_, pushBinGet_pushed h hw⟩
  | none =>
    obtain ⟨u₂, u₃, called, hready₃, hu₃, hreduce, hargs, _, hboth⟩ :=
      device_argument h hfits hs hk
    have hdevice : Unpickler.callGlobal typeParser .device called = some
        { u₂ with heap := u₂.heap ++ [.tuple [.string d.str]], stack := .device d :: u.stack } := by
      simp only [Unpickler.callGlobal, hargs, Option.bind_some, hread, Option.map_some]
      rfl
    have hready₄ := hready₃.step (hreduce.trans hdevice) trivial (fun hc => nomatch hc)
      (by rw [hu₃]; rfl) (by rw [hu₃]; rfl) (by rw [hu₃]; rfl)
      (by rw [hu₃]; exact List.prefix_refl _)
    have hnew : ((((p.pushGlobal (ascii "torch") (ascii "device")).pushString
        d.str).push .tuple1).push .reduce).lookup (.device d.str) = none := by
      rw [lookup_push, lookup_push, lookup_pushString (by simp), lookup_pushGlobal (by simp),
        hlookup]
    have hkey : .device d.str ∈ root.memoKeys useCount := hk _ (by simp [IValue.ownKeys])
    rw [pushDevice_of_new hlookup]
    exact ⟨_, hboth.replace (hready₄.remember hfits rfl hnew hkey ⟨d, rfl, hread⟩) rfl rfl
      (List.prefix_append _ _) (List.prefix_refl _)⟩

end TrackingSteps

end PyTorchCore.Pickle
