import PyTorchCore.TcpStore.Server

/-!
# The interface of the stores, and the store in memory

The calls of a `Store` that all stores implement, what they return, and `HashStore`, which keeps
the values in a map of its process.

`inDomain` collects what a caller promises: sizes, numbers that do not overflow, and no `get` of a
key that does not exist.
-/

namespace PyTorchCore.Stores

open Lib
open TcpStore (Bytes Key stoll toDecimal addInt64)

/-- The calls of `Store`. -/
inductive Call
  | set (key : Key) (value : Bytes)
  | compareSet (key : Key) (expectedValue desiredValue : Bytes)
  | add (key : Key) (i : Int)
  | check (keys : List Key)
  | get (key : Key)
deriving DecidableEq

/-- How a call ends.  A call that is `stuck` never does. -/
inductive Outcome
  | done
  | bytes (data : Bytes)
  | number (value : Int)
  | ready (all : Bool)
  | raised
  | stuck
deriving DecidableEq

/-- An `unordered_map` from keys to values. -/
abbrev Contents := AList (fun _ : Key => Bytes)

/-- `operator[]`, which makes an empty value for a key that is missing. -/
def Contents.bracket (key : Key) (map : Contents) : Contents × Bytes :=
  match map.lookup key with
  | some value => (map, value)
  | none => (map.insert key [], [])

/-- The sum of `add`; `std::stoll` is only called for a value that is not empty. -/
def sumWith (i : Int) (value : Bytes) : Option Int :=
  if value = [] then some i else (stoll value).map (addInt64 i)

namespace HashStore

def compareSet (key : Key) (expectedValue desiredValue : Bytes) (map : Contents) :
    Contents × Outcome :=
  match map.lookup key with
  | none =>
    if expectedValue = [] then (map.insert key desiredValue, .bytes desiredValue)
    else (map, .bytes expectedValue)
  | some value =>
    if value = expectedValue then (map.insert key desiredValue, .bytes desiredValue)
    else (map, .bytes value)

def add (key : Key) (i : Int) (map : Contents) : Contents × Outcome :=
  let (map, value) := map.bracket key
  match sumWith i value with
  | none => (map, .raised)
  | some ti => (map.insert key (toDecimal ti), .number ti)

def get (key : Key) (map : Contents) : Contents × Outcome :=
  match map.lookup key with
  | none => (map, .raised)
  | some value => (map, .bytes value)

def check (keys : List Key) (map : Contents) : Contents × Outcome :=
  (map, .ready (keys.all (fun key => key ∈ map)))

def step (map : Contents) : Call → Contents × Outcome
  | .set key value => (map.insert key value, .done)
  | .compareSet key expectedValue desiredValue => compareSet key expectedValue desiredValue map
  | .add key i => add key i map
  | .check keys => check keys map
  | .get key => get key map

end HashStore

/-- The store in memory, which is empty at first. -/
def hashStore : Machine Contents Call Outcome where
  init := ∅
  step := HashStore.step

section Domain

/-- A number of type `int64_t`. -/
def isInt64 (value : Int) : Bool :=
  -2 ^ 63 ≤ value ∧ value < 2 ^ 63

/-- The sum of `add` does not overflow. -/
def sumFits (i : Int) (value : Bytes) : Bool :=
  (stoll value).all (fun old => isInt64 (i + old))

/-- The calls that stores are made for: values are shorter than 4 GiB, numbers and sums are of
type `int64_t`, and `get` is for a key that exists. -/
def inDomain (map : Contents) : Call → Bool
  | .set _ value => value.length < 2 ^ 32
  | .compareSet _ _ desiredValue => desiredValue.length < 2 ^ 32
  | .add key i => isInt64 i && (map.lookup key).all (sumFits i)
  | .check _ => true
  | .get key => key ∈ map

def Call.keys : Call → List Key
  | .set key _ => [key]
  | .compareSet key _ _ => [key]
  | .add key _ => [key]
  | .check keys => keys
  | .get key => [key]

/-- The keys of a call, with their prefix, are shorter than 4 GiB. -/
def Call.keysFit (call : Call) : Bool :=
  call.keys.all (fun key => key.length + 1 < 2 ^ 32)

end Domain

section Lemmas

variable {map : Contents} {key : Key}

/-- Reading a key that is not there gives the empty text. -/
theorem bracket_snd : (map.bracket key).2 = (map.lookup key).getD [] := by
  rw [Contents.bracket]
  cases map.lookup key <;> rfl

theorem lookup_bracket (other : Key) (h : other ≠ key) :
    (map.bracket key).1.lookup other = map.lookup other := by
  rw [Contents.bracket]
  cases map.lookup key with
  | some value => rfl
  | none => exact AList.lookup_insert_ne h

/-- A key is there if it has a value. -/
theorem mem_iff_lookup : key ∈ map ↔ ∃ value, map.lookup key = some value := by
  rw [← AList.lookup_isSome, Option.isSome_iff_exists]

theorem bracket_of_raised {i : Int} (h : sumWith i (map.bracket key).2 = none) :
    (map.bracket key).1 = map := by
  rw [Contents.bracket] at h ⊢
  cases hlookup : map.lookup key with
  | none =>
    rw [hlookup] at h
    exact absurd h (by simp [sumWith])
  | some value => rfl

theorem lookup_bracket_insert (value : Bytes) (other : Key) :
    ((map.bracket key).1.insert key value).lookup other = (map.insert key value).lookup other := by
  by_cases h : other = key
  · rw [h, AList.lookup_insert, AList.lookup_insert]
  · rw [AList.lookup_insert_ne h, AList.lookup_insert_ne h, lookup_bracket other h]

end Lemmas

end PyTorchCore.Stores
