import PyTorchCore.Stores.FileStore

/-!
# Stores that share a file

Any number of `FileStore` objects work on one file. A call holds the lock of the file from its
first access to its last one, so calls act one after the other.
-/

namespace PyTorchCore.Stores

open Lib
open Option Function List
open TcpStore (Bytes Key stoll toDecimal addInt64)

universe u

/-- What an object keeps of the file. -/
structure View where
  pos : Nat
  cache : Contents

/-- A file, and the objects that work on it. -/
structure SharedFile (ι : Type u) where
  file : Option Bytes
  view : ι → View

namespace SharedFile

variable {ι : Type u}

/-- The store, as an object sees it. -/
def store (s : SharedFile ι) (i : ι) : FileStore where
  file := s.file
  pos := (s.view i).pos
  cache := (s.view i).cache

def step [DecidableEq ι] (s : SharedFile ι) (event : ι × Call) : SharedFile ι × Outcome :=
  let (t, outcome) := (s.store event.1).step event.2
  ({ file := t.file
     view := Function.update s.view event.1 { pos := t.pos, cache := t.cache } }, outcome)

end SharedFile

/-- New objects on an empty file; `present` says whether it is there. -/
def sharedFile (ι : Type u) [DecidableEq ι] (present : Bool) :
    Machine (SharedFile ι) (ι × Call) Outcome where
  init := { file := if present then some [] else none, view := fun _ => { pos := 0, cache := ∅ } }
  step := SharedFile.step

section AtomicMap

/-- One call of a map.  It is `none` before the file exists: then the calls that open the file
without `O_CREAT` wait for it, and raise in the end. -/
def atomicStep (map : Option Contents) (call : Call) : Option Contents × Outcome :=
  if map.isNone && call.readsFile then (map, .raised)
  else
    let (after, outcome) := HashStore.step (map.getD ∅) call
    (some after, outcome)

def atomicMap (present : Bool) : Machine (Option Contents) Call Outcome where
  init := if present then some ∅ else none
  step := atomicStep

/-- The entries that a call appends to the file. -/
def written (map : Contents) : Call → List (Key × Bytes)
  | .set key value => [(FileStore.regKey key, value)]
  | .compareSet key expectedValue desiredValue =>
    if (map.lookup key).getD [] = expectedValue then [(FileStore.regKey key, desiredValue)]
    else []
  | .add key i =>
    ((sumWith i ((map.lookup key).getD [])).map (fun ti =>
      (FileStore.regKey key, toDecimal ti))).toList
  | .check _ => []
  | .get _ => []

/-- The entries that a sequence of calls appends to the file. -/
def logFrom (map : Option Contents) : List Call → List (Key × Bytes)
  | [] => []
  | call :: calls => written (map.getD ∅) call ++ logFrom (atomicStep map call).1 calls

/-- What `File::write` asserts of the sizes, and numbers of type `int64_t`. -/
def Call.fits : Call → Bool
  | .set key value => key.length + 1 < 2 ^ 32 && value.length < 2 ^ 32
  | .compareSet key _ desiredValue => key.length + 1 < 2 ^ 32 && desiredValue.length < 2 ^ 32
  | .add key i => key.length + 1 < 2 ^ 32 && isInt64 i
  | .check _ => true
  | .get _ => true

end AtomicMap

section Entries

variable {cache cache' : Contents} {entries : List (Key × Bytes)} {map : Contents} {call : Call}

theorem readInto_congr
    (h : ∀ key, key ∈ entries.map Prod.fst ∨ cache.lookup key = cache'.lookup key) (key : Key) :
    (readInto cache entries).lookup key = (readInto cache' entries).lookup key := by
  induction entries generalizing cache cache' with
  | nil => exact (h key).resolve_left not_mem_nil
  | cons entry entries ih =>
    refine ih (fun other => ?_)
    by_cases heq : other = entry.1
    · right
      rw [heq, AList.lookup_insert, AList.lookup_insert]
    · rcases h other with hin | hsame
      · left
        exact (mem_cons.mp hin).resolve_left heq
      · right
        rw [AList.lookup_insert_ne heq, AList.lookup_insert_ne heq]
        exact hsame

theorem readInto_append (cache : Contents) (entries more : List (Key × Bytes)) :
    readInto cache (entries ++ more) = readInto (readInto cache entries) more :=
  foldl_append

theorem writeEntries_append_log (entries more : List (Key × Bytes)) :
    writeEntries (entries ++ more) = writeEntries entries ++ writeEntries more :=
  flatMap_append

theorem writeEntries_singleton (key : Key) (value : Bytes) :
    writeEntries [(key, value)] = FileStore.writeEntry key value :=
  append_nil _

theorem fits_written (hcall : call.fits = true) : ∀ entry ∈ written map call, Fits entry := by
  intro entry hentry
  cases call with
  | set key value =>
    obtain ⟨hkey, hvalue⟩ := Bool.and_eq_true_iff.mp hcall
    rw [mem_singleton.mp hentry]
    exact ⟨of_decide_eq_true hkey, of_decide_eq_true hvalue⟩
  | compareSet key expectedValue desiredValue =>
    obtain ⟨hkey, hvalue⟩ := Bool.and_eq_true_iff.mp hcall
    rw [written] at hentry
    split at hentry
    · rw [mem_singleton.mp hentry]
      exact ⟨of_decide_eq_true hkey, of_decide_eq_true hvalue⟩
    · exact absurd hentry not_mem_nil
  | add key i =>
    obtain ⟨hkey, hi⟩ := Bool.and_eq_true_iff.mp hcall
    obtain ⟨ti, hsum, rfl⟩ := map_eq_some_iff.mp (mem_toList.mp hentry)
    exact ⟨of_decide_eq_true hkey, length_toDecimal (isInt64_sumWith hi hsum)⟩
  | check keys => exact absurd hentry not_mem_nil
  | get key => exact absurd hentry not_mem_nil

/-- Reading what a call wrote gives the contents after the call. -/
theorem lookup_written (hcache : ∀ key, cache.lookup (FileStore.regKey key) = map.lookup key)
    (call : Call) (key : Key) :
    (readInto cache (written map call)).lookup (FileStore.regKey key) =
      (HashStore.step map call).1.lookup key := by
  cases call with
  | set target value => exact lookup_insert_regKey hcache key
  | compareSet target expectedValue desiredValue =>
    rw [written, HashStore.step, HashStore.compareSet]
    cases hlookup : map.lookup target with
    | none =>
      by_cases hnil : expectedValue = []
      · rw [getD_none, if_pos hnil.symm]
        simp only [if_pos hnil]
        exact lookup_insert_regKey hcache key
      · rw [getD_none, if_neg (fun h => hnil h.symm)]
        simp only [if_neg hnil]
        exact hcache key
    | some value =>
      by_cases heq : value = expectedValue
      · rw [getD_some, if_pos heq]
        simp only [if_pos heq]
        exact lookup_insert_regKey hcache key
      · rw [getD_some, if_neg heq]
        simp only [if_neg heq]
        exact hcache key
  | add target i =>
    rw [written, ← bracket_snd, HashStore.step, HashStore.add]
    cases hsum : sumWith i (map.bracket target).2 with
    | none =>
      simp only [hsum]
      rw [bracket_of_raised hsum]
      exact hcache key
    | some ti =>
      simp only [hsum]
      exact (lookup_insert_regKey hcache key).trans (lookup_bracket_insert _ key).symm
  | check keys => exact hcache key
  | get target =>
    rw [HashStore.step, HashStore.get]
    cases map.lookup target <;> exact hcache key

end Entries

section Reads

/-- An object has read the first `n` entries of a log.  Apart from their values it may hold an
empty placeholder for a key whose first value it wrote itself. -/
structure ReadsTo (log : List (Key × Bytes)) (view : View) (n : Nat) : Prop where
  le : n ≤ log.length
  pos : view.pos = (writeEntries (log.take n)).length
  values : ∀ key ∈ readInto ∅ (log.take n),
    view.cache.lookup key = (readInto ∅ (log.take n)).lookup key
  placeholders : ∀ key ∈ view.cache, key ∉ readInto ∅ (log.take n) →
    view.cache.lookup key = some [] ∧ key ∈ (log.drop n).map Prod.fst

variable {log : List (Key × Bytes)} {view : View} {n : Nat}

theorem readsTo_initial : ReadsTo [] { pos := 0, cache := ∅ } 0 where
  le := Nat.le_refl 0
  pos := rfl
  values := fun _ _ => rfl
  placeholders := fun key h => absurd h (AList.notMem_empty key)

/-- What was read stays read when the log grows. -/
theorem ReadsTo.append (h : ReadsTo log view n) (more : List (Key × Bytes)) :
    ReadsTo (log ++ more) view n := by
  have htake : (log ++ more).take n = log.take n := take_append_of_le_length h.le
  have hdrop : (log ++ more).drop n = log.drop n ++ more := drop_append_of_le_length h.le
  refine ⟨?_, ?_, ?_, ?_⟩
  · rw [length_append]
    exact h.le.trans (Nat.le_add_right _ _)
  · rw [htake]
    exact h.pos
  · rw [htake]
    exact h.values
  · rw [htake, hdrop, map_append]
    intro key hin hout
    obtain ⟨hvalue, hlater⟩ := h.placeholders key hin hout
    exact ⟨hvalue, mem_append_left _ hlater⟩

theorem ReadsTo.lookup_rest (h : ReadsTo log view n) (key : Key) :
    (readInto view.cache (log.drop n)).lookup key = (readInto ∅ log).lookup key := by
  have hsplit : readInto ∅ log = readInto (readInto ∅ (log.take n)) (log.drop n) := by
    rw [← readInto_append, take_append_drop]
  rw [hsplit]
  refine readInto_congr (fun other => ?_) key
  by_cases hread : other ∈ readInto ∅ (log.take n)
  · exact .inr (h.values other hread)
  · by_cases hcached : other ∈ view.cache
    · exact .inl (h.placeholders other hcached hread).2
    · right
      rw [AList.lookup_eq_none.mpr hread, AList.lookup_eq_none.mpr hcached]

theorem refresh_readsTo {s : FileStore} (h : ReadsTo log { pos := s.pos, cache := s.cache } n)
    (hfits : ∀ entry ∈ log, Fits entry) :
    ∃ t, FileStore.refresh (writeEntries log) s = some t ∧ t.file = some (writeEntries log) ∧
      t.pos = (writeEntries log).length ∧
      ∀ key, t.cache.lookup key = (readInto ∅ log).lookup key := by
  have hsplit : writeEntries log = writeEntries (log.take n) ++ writeEntries (log.drop n) := by
    rw [← writeEntries_append_log, take_append_drop]
  have hpos : s.pos = (writeEntries (log.take n)).length := h.pos
  have hdrop : (writeEntries log).drop s.pos = writeEntries (log.drop n) := by
    rw [hpos, hsplit, drop_left]
  have hlength : s.pos + (writeEntries (log.drop n)).length = (writeEntries log).length := by
    rw [hpos, hsplit, length_append]
  have hfuel : (log.drop n).length ≤ (writeEntries log).length := by
    have hle := length_le_writeEntries (log.drop n)
    omega
  refine ⟨{ file := some (writeEntries log), pos := (writeEntries log).length,
            cache := readInto s.cache (log.drop n) }, ?_, rfl, rfl, h.lookup_rest⟩
  rw [FileStore.refresh, hdrop,
    refresh_writeEntries (fun entry hin => hfits entry (mem_of_mem_drop hin)) _ hfuel, hlength]
  rfl

theorem readsTo_all (hpos : view.pos = (writeEntries log).length)
    (hcache : ∀ key, view.cache.lookup key = (readInto ∅ log).lookup key) :
    ReadsTo log view log.length := by
  refine ⟨Nat.le_refl _, ?_, ?_, ?_⟩
  · rw [take_length]
    exact hpos
  · rw [take_length]
    exact fun key _ => hcache key
  · rw [take_length]
    intro key hin hout
    obtain ⟨value, hvalue⟩ := mem_iff_lookup.mp hin
    rw [hcache key] at hvalue
    exact absurd (mem_iff_lookup.mpr ⟨value, hvalue⟩) hout

/-- An object that has read the log writes one entry and has read that too. -/
theorem readsTo_bracket {pos : Nat} {cache : Contents} {key : Key} {value : Bytes}
    (hpos : pos = (writeEntries log).length)
    (hcache : ∀ key, cache.lookup key = (readInto ∅ log).lookup key) :
    ReadsTo (log ++ [(key, value)]) { pos := pos, cache := (cache.bracket key).1 } log.length := by
  have htake : (log ++ [(key, value)]).take log.length = log := take_left
  have hdrop : (log ++ [(key, value)]).drop log.length = [(key, value)] := drop_left
  refine ⟨?_, ?_, ?_, ?_⟩
  · rw [length_append]
    exact Nat.le_add_right _ _
  · rw [htake]
    exact hpos
  · rw [htake]
    intro other hin
    obtain ⟨old, hold⟩ := mem_iff_lookup.mp hin
    rw [Contents.bracket]
    cases hlookup : cache.lookup key with
    | some current => exact hcache other
    | none =>
      have hne : other ≠ key := by
        rintro rfl
        rw [hcache, hold] at hlookup
        cases hlookup
      exact (AList.lookup_insert_ne hne).trans (hcache other)
  · rw [htake, hdrop]
    intro other hin hout
    have hnone : cache.lookup other = none := (hcache other).trans (AList.lookup_eq_none.mpr hout)
    have hkey : other = key := by
      by_contra hne
      obtain ⟨old, hold⟩ := mem_iff_lookup.mp hin
      rw [lookup_bracket other hne, hnone] at hold
      cases hold
    rw [hkey] at hnone ⊢
    refine ⟨?_, mem_singleton_self _⟩
    rw [Contents.bracket, hnone]
    exact AList.lookup_insert _

theorem ReadsTo.lookup_end (h : ReadsTo log view n) (hend : (writeEntries log).length = view.pos)
    (key : Key) : view.cache.lookup key = (readInto ∅ log).lookup key := by
  have hrest : log.drop n = [] := by
    have hsplit : (writeEntries log).length =
        (writeEntries (log.take n)).length + (writeEntries (log.drop n)).length := by
      rw [← length_append, ← writeEntries_append_log, take_append_drop]
    have hle := length_le_writeEntries (log.drop n)
    rw [h.pos] at hend
    exact eq_nil_of_length_eq_zero (by omega)
  rw [← h.lookup_rest key, hrest]
  rfl

end Reads

section Step

variable {log : List (Key × Bytes)} {map : Contents} {n : Nat}

/-- The log and the map hold the same values. -/
def Mirrors (log : List (Key × Bytes)) (map : Contents) : Prop :=
  ∀ key, (readInto ∅ log).lookup (FileStore.regKey key) = map.lookup key

/-- The log after a call mirrors the contents after it. -/
theorem Mirrors.written (h : Mirrors log map) (call : Call) :
    Mirrors (log ++ written map call) (HashStore.step map call).1 := by
  intro key
  rw [readInto_append]
  exact lookup_written h call key

theorem writeEntries_snoc (log : List (Key × Bytes)) (key : Key) (value : Bytes) :
    writeEntries log ++ FileStore.writeEntry key value = writeEntries (log ++ [(key, value)]) := by
  rw [writeEntries_append_log, writeEntries_singleton]

theorem step_readsTo {s : FileStore} (call : Call) (hfits : ∀ entry ∈ log, Fits entry)
    (hcreated : s.created = writeEntries log) (hmap : Mirrors log map)
    (h : ReadsTo log { pos := s.pos, cache := s.cache } n)
    (hfile : call.readsFile = true → s.file ≠ none) :
    (s.step call).2 = (HashStore.step map call).2 ∧
      (s.step call).1.file = some (writeEntries (log ++ written map call)) ∧
      ∃ m, ReadsTo (log ++ written map call)
        { pos := (s.step call).1.pos, cache := (s.step call).1.cache } m := by
  obtain ⟨t, ht, htfile, htpos, hcache⟩ := refresh_readsTo h hfits
  have hread : ReadsTo log { pos := t.pos, cache := t.cache } log.length :=
    readsTo_all htpos hcache
  have hlookup : ∀ key, t.cache.lookup (FileStore.regKey key) = map.lookup key :=
    fun key => (hcache _).trans (hmap key)
  cases call with
  | set key value =>
    refine ⟨rfl, ?_, n, h.append _⟩
    show some (s.created ++ FileStore.writeEntry (FileStore.regKey key) value) = _
    rw [hcreated, writeEntries_snoc]
    rfl
  | compareSet key expectedValue desiredValue =>
    have hcur : (map.lookup key).getD [] = expectedValue →
        some (s.created ++ FileStore.writeEntry (FileStore.regKey key) desiredValue) =
          some (writeEntries
            (log ++ written map (.compareSet key expectedValue desiredValue))) := by
      intro heq
      rw [written, if_pos heq, hcreated, writeEntries_snoc]
    have hother : (map.lookup key).getD [] ≠ expectedValue →
        log ++ written map (.compareSet key expectedValue desiredValue) = log := by
      intro hne
      rw [written, if_neg hne, append_nil]
    simp only [FileStore.step, FileStore.compareSet, HashStore.step, HashStore.compareSet,
      hcreated, ht, hlookup]
    rw [hcreated] at hcur
    cases hvalue : map.lookup key with
    | none =>
      rw [hvalue, getD_none] at hcur hother
      by_cases hnil : expectedValue = []
      · simp only [if_pos hnil]
        exact ⟨trivial, hcur hnil.symm, _, hread.append _⟩
      · simp only [if_neg hnil]
        rw [hother (fun heq => hnil heq.symm)]
        exact ⟨trivial, htfile, _, hread⟩
    | some value =>
      rw [hvalue, getD_some] at hcur hother
      by_cases heq : value = expectedValue
      · simp only [if_pos heq]
        exact ⟨trivial, hcur heq, _, hread.append _⟩
      · simp only [if_neg heq]
        rw [hother heq]
        exact ⟨trivial, htfile, _, hread⟩
  | add key i =>
    have hvalue : (t.cache.bracket (FileStore.regKey key)).2 = (map.bracket key).2 := by
      rw [bracket_snd, bracket_snd, hlookup]
    simp only [FileStore.step, FileStore.addHelper, HashStore.step, HashStore.add, hcreated, ht,
      hvalue]
    rw [written, ← bracket_snd]
    cases hsum : sumWith i (map.bracket key).2 with
    | none =>
      have hsame := bracket_of_raised (hvalue.symm ▸ hsum)
      simp only [map_none, toList_none, append_nil]
      rw [hsame]
      exact ⟨trivial, htfile, _, hread⟩
    | some ti =>
      simp only [map_some, toList_some]
      refine ⟨trivial, ?_, log.length, readsTo_bracket htpos hcache⟩
      show some (writeEntries log ++ _) = _
      rw [writeEntries_snoc]
  | check keys =>
    obtain ⟨file, hsome⟩ := ne_none_iff_exists'.mp (hfile rfl)
    have hmem : ∀ key, FileStore.regKey key ∈ t.cache ↔ key ∈ map := by
      intro key
      rw [mem_iff_lookup, mem_iff_lookup, hlookup]
    rw [← hcreated, created_eq hsome] at ht
    rw [written, append_nil]
    simp only [FileStore.step, FileStore.check, HashStore.step, HashStore.check, hsome, ht, hmem]
    exact ⟨trivial, htfile, _, hread⟩
  | get key =>
    obtain ⟨file, hsome⟩ := ne_none_iff_exists'.mp (hfile rfl)
    have hsame : file = writeEntries log := by
      rw [← hcreated, created_eq hsome]
    rw [written, append_nil]
    simp only [FileStore.step, FileStore.get, HashStore.step, HashStore.get, hsome, hsame, ht,
      hlookup]
    by_cases hnew : FileStore.regKey key ∉ s.cache ∧ (writeEntries log).length = s.pos
    · have hnone : map.lookup key = none := by
        rw [← hmap, ← h.lookup_end hnew.2]
        exact AList.lookup_eq_none.mpr hnew.1
      simp only [if_pos hnew, hnone]
      exact ⟨trivial, hsome.trans (congrArg some hsame), n, h⟩
    · simp only [if_neg hnew]
      cases map.lookup key with
      | none => exact ⟨rfl, htfile, _, hread⟩
      | some value => exact ⟨rfl, htfile, _, hread⟩

end Step

section Runs

variable {ι : Type u} [DecidableEq ι] {log : List (Key × Bytes)} {map : Option Contents}
  {s : SharedFile ι}

/-- The file holds the log, every object has read a part of it, and the map holds the same
values. -/
structure Shares (log : List (Key × Bytes)) (map : Option Contents) (s : SharedFile ι) : Prop where
  fits : ∀ entry ∈ log, Fits entry
  file : s.file.getD [] = writeEntries log
  present : s.file.isNone = map.isNone
  mirrors : Mirrors log (map.getD ∅)
  reads : ∀ i, ∃ n, ReadsTo log (s.view i) n

theorem shares_initial (present : Bool) :
    Shares [] (atomicMap present).init (sharedFile ι present).init where
  fits := fun _ h => absurd h not_mem_nil
  file := by cases present <;> rfl
  present := by cases present <;> rfl
  mirrors := by cases present <;> exact fun _ => rfl
  reads := fun _ => ⟨0, readsTo_initial⟩

theorem step_shares (h : Shares log map s) (event : ι × Call) (hcall : event.2.fits = true) :
    (s.step event).2 = (atomicStep map event.2).2 ∧
      Shares (log ++ written (map.getD ∅) event.2) (atomicStep map event.2).1 (s.step event).1 := by
  obtain ⟨i, call⟩ := event
  obtain ⟨n, hread⟩ := h.reads i
  rw [atomicStep]
  by_cases hmissing : (map.isNone && call.readsFile) = true
  · obtain ⟨hmap, hreads⟩ := Bool.and_eq_true_iff.mp hmissing
    have hfile : s.file = none := isNone_iff_eq_none.mp (h.present.trans hmap)
    have hsame : s.store i =
      { file := none, pos := (s.view i).pos, cache := (s.view i).cache } := by
      rw [SharedFile.store, hfile]
    have hstep : (s.store i).step call = (s.store i, .raised) ∧ written (map.getD ∅) call = [] := by
      rw [hsame]
      cases call with
      | set key value => cases hreads
      | compareSet key expectedValue desiredValue => cases hreads
      | add key amount => cases hreads
      | check keys => exact ⟨rfl, rfl⟩
      | get key => exact ⟨rfl, rfl⟩
    rw [if_pos hmissing, hstep.2, append_nil]
    simp only [SharedFile.step, hstep.1]
    have hview : update s.view i { pos := (s.store i).pos, cache := (s.store i).cache } = s.view :=
      update_eq_self i s.view
    rw [hview]
    exact ⟨trivial, h.fits, h.file, h.present, h.mirrors, h.reads⟩
  · have hfile : call.readsFile = true → (s.store i).file ≠ none := by
      intro hreads hnone
      have hmap : map.isNone = true := h.present.symm.trans (isNone_iff_eq_none.mpr hnone)
      exact hmissing (Bool.and_eq_true_iff.mpr ⟨hmap, hreads⟩)
    obtain ⟨hout, hnew, m, hread'⟩ := step_readsTo (s := s.store i) call h.fits h.file h.mirrors
      hread hfile
    rw [if_neg hmissing]
    refine ⟨hout, ?_, ?_, ?_, h.mirrors.written call, fun j => ?_⟩
    · intro entry hentry
      rcases mem_append.mp hentry with hold | hlast
      · exact h.fits entry hold
      · exact fits_written hcall entry hlast
    · exact congrArg (fun file => Option.getD file []) hnew
    · exact congrArg Option.isNone hnew
    · by_cases hij : j = i
      · subst hij
        refine ⟨m, ?_⟩
        simp only [SharedFile.step, update_self]
        exact hread'
      · obtain ⟨k, hother⟩ := h.reads j
        refine ⟨k, ?_⟩
        simp only [SharedFile.step, update_of_ne hij]
        exact hother.append _

/-- Any calls of any objects give the answers of one map. -/
theorem exec_shares (present : Bool) (events : List (ι × Call))
    (hcalls : ∀ event ∈ events, event.2.fits = true) (h : Shares log map s) :
    (sharedFile ι present).outcomes s events =
        (atomicMap present).outcomes map (events.map Prod.snd) ∧
      Shares (log ++ logFrom map (events.map Prod.snd))
        ((atomicMap present).exec map (events.map Prod.snd))
        ((sharedFile ι present).exec s events) := by
  induction events generalizing log map s with
  | nil =>
    refine ⟨rfl, ?_⟩
    show Shares (log ++ []) map s
    rw [append_nil]
    exact h
  | cons event events ih =>
    obtain ⟨hout, hstep⟩ := step_shares h event (hcalls event mem_cons_self)
    obtain ⟨hrest, hend⟩ := ih (fun later hin => hcalls later (mem_cons_of_mem _ hin)) hstep
    rw [append_assoc] at hend
    exact ⟨cons_eq_cons.mpr ⟨hout, hrest⟩, hend⟩

end Runs

end PyTorchCore.Stores
