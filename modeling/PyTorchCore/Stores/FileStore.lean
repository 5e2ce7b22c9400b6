import PyTorchCore.Lib.SizedBytes
import PyTorchCore.Stores.HashStore

/-!
# The store in a file

`FileStore` appends every value that is set to a file. A cache holds what was read up to the
position `pos`, and a call that needs values reads the rest of the file first.
-/

namespace PyTorchCore.Stores

open Lib
open Option List
open TcpStore (Bytes Key stoll toDecimal addInt64)

/-- A `FileStore`.  `file` is `none` as long as the file does not exist. -/
structure FileStore where
  file : Option Bytes
  pos : Nat
  cache : Contents

namespace FileStore

/-- `regularPrefix_ + key`. -/
def regKey (key : Key) : Key :=
  47 :: key

/-- `file.write` of a key and of a value. -/
def writeEntry (key : Key) (value : Bytes) : Bytes :=
  sized 4 key ++ sized 4 value

/-- The loop of `refresh`; reading behind the end of the file does not return. -/
def refreshFrom : Nat → Bytes → Nat → Contents → Option (Nat × Contents)
  | 0, _, pos, cache => some (pos, cache)
  | fuel + 1, rest, pos, cache =>
    if rest = [] then some (pos, cache)
    else do
      let (tmpKey, afterKey) ← readSized 4 rest
      let (tmpValue, afterValue) ← readSized 4 afterKey
      refreshFrom fuel afterValue (pos + (rest.length - afterValue.length))
        (cache.insert tmpKey tmpValue)

/-- `refresh` of the store from its file. -/
def refresh (file : Bytes) (s : FileStore) : Option FileStore :=
  (refreshFrom file.length (file.drop s.pos) s.pos s.cache).map (fun (pos, cache) =>
    { file := some file, pos := pos, cache := cache })

def append (file : Bytes) (key : Key) (value : Bytes) (s : FileStore) : FileStore :=
  { s with file := some (file ++ writeEntry key value) }

/-- Opens a file with `O_CREAT`. -/
def created (s : FileStore) : Bytes :=
  s.file.getD []

def set (key : Key) (value : Bytes) (s : FileStore) : FileStore × Outcome :=
  (s.append s.created (regKey key) value, .done)

def compareSet (key : Key) (expectedValue desiredValue : Bytes) (s : FileStore) :
    FileStore × Outcome :=
  match refresh s.created s with
  | none => ({ s with file := some s.created }, .stuck)
  | some t =>
    match t.cache.lookup (regKey key) with
    | none =>
      if expectedValue = [] then
        (t.append s.created (regKey key) desiredValue, .bytes desiredValue)
      else (t, .bytes expectedValue)
    | some value =>
      if value = expectedValue then
        (t.append s.created (regKey key) desiredValue, .bytes desiredValue)
      else (t, .bytes value)

def addHelper (key : Key) (i : Int) (s : FileStore) : FileStore × Outcome :=
  match refresh s.created s with
  | none => ({ s with file := some s.created }, .stuck)
  | some t =>
    let (cache, value) := t.cache.bracket key
    match sumWith i value with
    | none => ({ t with cache := cache }, .raised)
    | some ti => ({ t with cache := cache }.append s.created key (toDecimal ti), .number ti)

/-- `FileStore::get`, which opens the file without `O_CREAT` and gives up after the timeout. -/
def get (key : Key) (s : FileStore) : FileStore × Outcome :=
  match s.file with
  | none => (s, .raised)
  | some file =>
    if regKey key ∉ s.cache ∧ file.length = s.pos then (s, .raised)
    else
      match refresh file s with
      | none => (s, .stuck)
      | some t =>
        match t.cache.lookup (regKey key) with
        | none => (t, .raised)
        | some value => (t, .bytes value)

/-- `FileStore::check`, which opens the file without `O_CREAT` and gives up after the
timeout. -/
def check (keys : List Key) (s : FileStore) : FileStore × Outcome :=
  match s.file with
  | none => (s, .raised)
  | some file =>
    match refresh file s with
    | none => (s, .stuck)
    | some t => (t, .ready (keys.all (fun key => regKey key ∈ t.cache)))

def step (s : FileStore) : Call → FileStore × Outcome
  | .set key value => s.set key value
  | .compareSet key expectedValue desiredValue => s.compareSet key expectedValue desiredValue
  | .add key i => s.addHelper (regKey key) i
  | .check keys => s.check keys
  | .get key => s.get key

end FileStore

/-- A store with no entries; `present` says whether its file is there. -/
def fileStore (present : Bool) : Machine FileStore Call Outcome where
  init := { file := if present then some [] else none, pos := 0, cache := ∅ }
  step := FileStore.step

section Log

def Fits (entry : Key × Bytes) : Prop :=
  entry.1.length < 256 ^ 4 ∧ entry.2.length < 256 ^ 4

def writeEntries (entries : List (Key × Bytes)) : Bytes :=
  entries.flatMap (fun entry => FileStore.writeEntry entry.1 entry.2)

def readInto (cache : Contents) (entries : List (Key × Bytes)) : Contents :=
  entries.foldl (fun cache entry => cache.insert entry.1 entry.2) cache

theorem writeEntries_append (entries : List (Key × Bytes)) (key : Key) (value : Bytes) :
    writeEntries (entries ++ [(key, value)]) =
      writeEntries entries ++ FileStore.writeEntry key value := by
  rw [writeEntries, flatMap_append, flatMap_singleton]
  rfl

theorem length_le_writeEntries (entries : List (Key × Bytes)) :
    entries.length ≤ (writeEntries entries).length := by
  induction entries with
  | nil => exact Nat.zero_le _
  | cons entry entries ih =>
    have hcons : writeEntries (entry :: entries) =
        FileStore.writeEntry entry.1 entry.2 ++ writeEntries entries := rfl
    have hpos : 1 ≤ (FileStore.writeEntry entry.1 entry.2).length := by
      simp only [FileStore.writeEntry, sized, length_append, length_littleEndian]
      omega
    rw [hcons, length_append, length_cons]
    omega

/-- What was written is read back entry by entry. -/
theorem refresh_writeEntries {entries : List (Key × Bytes)} (hfits : ∀ entry ∈ entries, Fits entry)
    (fuel : Nat) (hfuel : entries.length ≤ fuel) (pos : Nat) (cache : Contents) :
    FileStore.refreshFrom fuel (writeEntries entries) pos cache =
      some (pos + (writeEntries entries).length, readInto cache entries) := by
  induction entries generalizing fuel pos cache with
  | nil =>
    cases fuel with
    | zero => rfl
    | succ fuel => exact if_pos rfl
  | cons entry entries ih =>
    cases fuel with
    | zero => exact absurd hfuel (Nat.not_succ_le_zero _)
    | succ fuel =>
      obtain ⟨key, value⟩ := entry
      have hkey : key.length < 256 ^ 4 := (hfits (key, value) mem_cons_self).1
      have hvalue : value.length < 256 ^ 4 := (hfits (key, value) mem_cons_self).2
      have hcons : writeEntries ((key, value) :: entries) =
          sized 4 key ++ (sized 4 value ++ writeEntries entries) := by
        show FileStore.writeEntry key value ++ writeEntries entries = _
        rw [FileStore.writeEntry, append_assoc]
      have hlength : (writeEntries ((key, value) :: entries)).length =
          (8 + key.length + value.length) + (writeEntries entries).length := by
        rw [hcons, length_append, length_append, length_sized hkey, length_sized hvalue]
        omega
      have hne : writeEntries ((key, value) :: entries) ≠ [] := by
        intro hnil
        rw [hnil] at hlength
        simp only [length_nil] at hlength
        omega
      have ih' := ih (fun entry h => hfits entry (mem_cons_of_mem _ h)) fuel
        (Nat.le_of_succ_le_succ hfuel)
      rw [FileStore.refreshFrom, if_neg hne, hlength, hcons]
      simp only [readSized_sized hkey, readSized_sized hvalue, bind_eq_bind, bind_some]
      rw [ih', Nat.add_sub_cancel, Nat.add_assoc]
      rfl

/-- The file and the cache together hold the contents of a store. -/
def Logs (map : Contents) (s : FileStore) : Prop :=
  ∃ entries, (∀ entry ∈ entries, Fits entry) ∧ s.pos ≤ s.created.length ∧
    s.created.drop s.pos = writeEntries entries ∧
    ∀ key, (readInto s.cache entries).lookup (FileStore.regKey key) = map.lookup key

variable {map : Contents} {s : FileStore} {key : Key} {value : Bytes}

/-- Reading the file to its end gives the contents of the log. -/
theorem Logs.refresh (h : Logs map s) : ∃ t, s.refresh s.created = some t ∧
    t.file = some s.created ∧ t.pos = s.created.length ∧
    ∀ key, t.cache.lookup (FileStore.regKey key) = map.lookup key := by
  obtain ⟨entries, hfits, hpos, hdrop, hlookup⟩ := h
  have hlength : s.pos + (writeEntries entries).length = s.created.length := by
    rw [← hdrop, length_drop]
    omega
  have hfuel : entries.length ≤ s.created.length := by
    have hle := length_le_writeEntries entries
    omega
  refine ⟨{ file := some s.created, pos := s.created.length, cache := readInto s.cache entries },
    ?_, rfl, rfl, hlookup⟩
  rw [FileStore.refresh, hdrop, refresh_writeEntries hfits _ hfuel, hlength]
  rfl

theorem logs_of_current {file : Bytes} (hfile : s.file = some file) (hpos : s.pos = file.length)
    (hlookup : ∀ key, s.cache.lookup (FileStore.regKey key) = map.lookup key) : Logs map s := by
  have hcreated : s.created = file := by
    rw [FileStore.created, hfile]
    rfl
  refine ⟨[], fun _ h => absurd h not_mem_nil, ?_, ?_, hlookup⟩
  · rw [hcreated, hpos]
  · rw [hcreated, hpos, drop_length]
    rfl

theorem logs_append {t : FileStore} {file : Bytes} (entries : List (Key × Bytes))
    (hfits : ∀ entry ∈ entries, Fits entry) (hpos : t.pos ≤ file.length)
    (hdrop : file.drop t.pos = writeEntries entries)
    (hlookup : ∀ other, ((readInto t.cache entries).insert (FileStore.regKey key) value).lookup
      (FileStore.regKey other) = (map.insert key value).lookup other)
    (hfit : Fits (FileStore.regKey key, value)) :
    Logs (map.insert key value) (t.append file (FileStore.regKey key) value) := by
  refine ⟨entries ++ [(FileStore.regKey key, value)], fun entry hentry => ?_, ?_, ?_,
    fun other => ?_⟩
  · rcases mem_append.mp hentry with hold | hnew
    · exact hfits entry hold
    · rw [mem_singleton.mp hnew]
      exact hfit
  · show t.pos ≤ (file ++ FileStore.writeEntry (FileStore.regKey key) value).length
    rw [length_append]
    exact hpos.trans (Nat.le_add_right _ _)
  · show (file ++ FileStore.writeEntry (FileStore.regKey key) value).drop t.pos = _
    rw [drop_append_of_le_length hpos, hdrop, writeEntries_append]
  · rw [readInto, foldl_append]
    exact hlookup other

theorem regKey_injective {key other : Key} : FileStore.regKey other = FileStore.regKey key ↔
    other = key :=
  ⟨fun h => tail_eq_of_cons_eq h, fun h => congrArg _ h⟩

/-- Writing one key into the cache. -/
theorem lookup_insert_regKey {cache : Contents}
    (h : ∀ key, cache.lookup (FileStore.regKey key) = map.lookup key) (other : Key) :
    (cache.insert (FileStore.regKey key) value).lookup (FileStore.regKey other) =
      (map.insert key value).lookup other := by
  by_cases heq : other = key
  · rw [heq, AList.lookup_insert, AList.lookup_insert]
  · rw [AList.lookup_insert_ne (fun hreg => heq (regKey_injective.mp hreg)),
      AList.lookup_insert_ne heq, h]

end Log

section Numbers

theorem length_toDecimal {value : Int} (h : isInt64 value = true) :
    (toDecimal value).length < 256 ^ 4 := by
  have hdigits : ∀ k : Nat, k < 10 ^ 20 → (TcpStore.decimal k).length ≤ 20 := by
    intro k hk
    rw [TcpStore.decimal, length_map]
    exact Nat.toDigits_length 10 k 20 (by norm_num) hk
  obtain ⟨hlow, hhigh⟩ := of_decide_eq_true h
  cases value with
  | ofNat k =>
    have hbound : (k : Int) < 2 ^ 63 := hhigh
    have hk := hdigits k (by omega)
    exact hk.trans_lt (by norm_num)
  | negSucc k =>
    have hk := hdigits (k + 1) (by omega)
    show (TcpStore.decimal (k + 1)).length + 1 < 256 ^ 4
    omega

theorem isInt64_sumWith {i ti : Int} {value : Bytes} (hi : isInt64 i = true)
    (h : sumWith i value = some ti) : isInt64 ti = true := by
  rw [sumWith] at h
  split at h
  · cases h
    exact hi
  · obtain ⟨old, _, rfl⟩ := map_eq_some_iff.mp h
    have hlow := Int.le_bmod (x := i + old) (m := 2 ^ 64) (by norm_num)
    have hhigh := Int.bmod_lt (x := i + old) (m := 2 ^ 64) (by norm_num)
    refine decide_eq_true ⟨?_, ?_⟩
    · rw [addInt64]
      omega
    · rw [addInt64]
      omega

end Numbers

section Calls

variable {map : Contents} {s : FileStore}

/-- The calls that open the file without `O_CREAT`. -/
def Call.readsFile : Call → Bool
  | .check _ => true
  | .get _ => true
  | _ => false

/-- The log only goes by its contents. -/
theorem Logs.congr {map' : Contents} (h : Logs map s)
    (heq : ∀ key, map'.lookup key = map.lookup key) : Logs map' s := by
  obtain ⟨entries, hfits, hpos, hdrop, hlookup⟩ := h
  exact ⟨entries, hfits, hpos, hdrop, fun key => (hlookup key).trans (heq key).symm⟩

theorem Logs.lookup_of_read {key : Key} (h : Logs map s) (hpos : s.created.length = s.pos)
    (hcache : FileStore.regKey key ∉ s.cache) : map.lookup key = none := by
  obtain ⟨entries, _, _, hdrop, hlookup⟩ := h
  rw [← hpos, drop_length] at hdrop
  have hnil : entries = [] := by
    refine eq_nil_of_length_eq_zero (Nat.le_zero.mp ?_)
    have hle := length_le_writeEntries entries
    rw [← hdrop] at hle
    exact hle
  rw [hnil] at hlookup
  rw [← hlookup key]
  exact AList.lookup_eq_none.mpr hcache

theorem created_eq {t : FileStore} {file : Bytes} (h : t.file = some file) : t.created = file := by
  rw [FileStore.created, h]
  rfl

theorem logs_step {call : Call} (h : Logs map s) (hdomain : inDomain map call = true)
    (hkeys : call.keysFit = true) (hfile : call.readsFile = true → s.file ≠ none) :
    (s.step call).2 = (HashStore.step map call).2 ∧
      Logs (HashStore.step map call).1 (s.step call).1 ∧
      (s.step call).1.file ≠ none := by
  have hkey : ∀ key ∈ call.keys, (FileStore.regKey key).length < 256 ^ 4 := by
    intro key hin
    exact of_decide_eq_true (all_eq_true.mp hkeys key hin)
  obtain ⟨t, ht, htfile, htpos, htlookup⟩ := h.refresh
  have hlogs : Logs map t := logs_of_current htfile htpos htlookup
  have hnone : t.file ≠ none := by
    rw [htfile]
    exact some_ne_none _
  have hwrite : ∀ key value, Fits (FileStore.regKey key, value) →
      Logs (map.insert key value) (t.append s.created (FileStore.regKey key) value) := by
    intro key value hfit
    refine logs_append [] (fun _ hin => absurd hin not_mem_nil) htpos.le ?_
      (lookup_insert_regKey htlookup) hfit
    rw [htpos, drop_length]
    rfl
  cases call with
  | set key value =>
    obtain ⟨entries, hfits, hpos, hdrop, hlookup⟩ := h
    exact ⟨rfl, logs_append entries hfits hpos hdrop (lookup_insert_regKey hlookup)
      ⟨hkey key mem_cons_self, of_decide_eq_true hdomain⟩, some_ne_none _⟩
  | compareSet key expectedValue desiredValue =>
    have hfit : Fits (FileStore.regKey key, desiredValue) :=
      ⟨hkey key mem_cons_self, of_decide_eq_true hdomain⟩
    simp only [FileStore.step, FileStore.compareSet, HashStore.step, HashStore.compareSet, ht,
      htlookup]
    cases map.lookup key with
    | none =>
      dsimp only
      split
      · exact ⟨rfl, hwrite key desiredValue hfit, some_ne_none _⟩
      · exact ⟨rfl, hlogs, hnone⟩
    | some value =>
      dsimp only
      split
      · exact ⟨rfl, hwrite key desiredValue hfit, some_ne_none _⟩
      · exact ⟨rfl, hlogs, hnone⟩
  | add key i =>
    have hint : isInt64 i = true := (Bool.and_eq_true_iff.mp hdomain).1
    have hvalue : (t.cache.bracket (FileStore.regKey key)).2 = (map.bracket key).2 := by
      rw [bracket_snd, bracket_snd, htlookup]
    simp only [FileStore.step, FileStore.addHelper, HashStore.step, HashStore.add, ht, hvalue]
    cases hsum : sumWith i (map.bracket key).2 with
    | none =>
      have hcache := bracket_of_raised (hvalue.symm ▸ hsum)
      rw [hcache, bracket_of_raised hsum]
      exact ⟨rfl, hlogs, hnone⟩
    | some ti =>
      have hfit : Fits (FileStore.regKey key, toDecimal ti) :=
        ⟨hkey key mem_cons_self, length_toDecimal (isInt64_sumWith hint hsum)⟩
      have hlogs' : Logs (map.insert key (toDecimal ti))
          ({ t with cache := (t.cache.bracket (FileStore.regKey key)).1 }.append s.created
            (FileStore.regKey key) (toDecimal ti)) := by
        refine logs_append [] (fun _ hin => absurd hin not_mem_nil)
          htpos.le ?_ (fun other => ?_) hfit
        · rw [htpos, drop_length]
          rfl
        · exact (lookup_bracket_insert _ _).trans (lookup_insert_regKey htlookup other)
      exact ⟨rfl, hlogs'.congr (lookup_bracket_insert _), some_ne_none _⟩
  | check keys =>
    obtain ⟨file, hsome⟩ := ne_none_iff_exists'.mp (hfile rfl)
    rw [created_eq hsome] at ht
    have hmem : ∀ key, FileStore.regKey key ∈ t.cache ↔ key ∈ map := by
      intro key
      rw [mem_iff_lookup, mem_iff_lookup, htlookup]
    simp only [FileStore.step, FileStore.check, HashStore.step, HashStore.check, hsome, ht, hmem]
    exact ⟨trivial, hlogs, hnone⟩
  | get key =>
    obtain ⟨file, hsome⟩ := ne_none_iff_exists'.mp (hfile rfl)
    obtain ⟨value, hvalue⟩ := mem_iff_lookup.mp (of_decide_eq_true hdomain)
    have hnew : ¬ (FileStore.regKey key ∉ s.cache ∧ file.length = s.pos) := by
      rintro ⟨hcache, hpos⟩
      rw [← created_eq hsome] at hpos
      rw [h.lookup_of_read hpos hcache] at hvalue
      cases hvalue
    rw [created_eq hsome] at ht
    simp only [FileStore.step, FileStore.get, HashStore.step, HashStore.get, hsome, if_neg hnew,
      ht, htlookup, hvalue]
    exact ⟨trivial, hlogs, hnone⟩

end Calls

end PyTorchCore.Stores
