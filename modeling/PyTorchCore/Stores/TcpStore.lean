import PyTorchCore.Stores.HashStore
import PyTorchCore.TcpStore.Client

/-!
# The store behind a server

`TCPStore` as its only client sees it: each call sends a request and reads the response, and the
server handles the requests of the socket in order.

A call on a connection that was closed raises, except that `set` reads nothing and may return
before the client learns that the connection is gone; `taken` says which of the calls do.
-/

namespace PyTorchCore.Stores

open Lib
open Option Function List
open TcpStore (Bytes Key Fd Server Request Message stoll toDecimal addInt64 sentTo)

/-- A `TCPStore` with the server behind it, and the number of its calls. -/
structure TcpClient where
  server : Server
  calls : Nat

namespace TcpClient

/-- `keyPrefix_ + key`. -/
def prefixed (key : Key) : Key :=
  47 :: key

def initKey : Key :=
  [105, 110, 105, 116, 47]

def exchange (fd : Fd) (request : Request) (s : Server) : Server × Option Message :=
  (s.step (.request fd request), (sentTo fd (s.step (.request fd request)).outbox).head?)

def set (fd : Fd) (taken : Bool) (key : Key) (data : Bytes) (s : Server) : Server × Outcome :=
  (s.step (.request fd (.set (prefixed key) data)),
    if (s.connections fd).isSome ∨ taken then .done else .raised)

def compareSet (fd : Fd) (key : Key) (expectedValue desiredValue : Bytes) (s : Server) :
    Server × Outcome :=
  match exchange fd (.compareSet (prefixed key) expectedValue desiredValue) s with
  | (s, some (.vector data)) => (s, .bytes data)
  | (s, _) => (s, .raised)

def add (fd : Fd) (key : Key) (value : Int) (s : Server) : Server × Outcome :=
  match exchange fd (.add (prefixed key) value) s with
  | (s, some (.number sum)) => (s, .number sum)
  | (s, _) => (s, .raised)

def check (fd : Fd) (keys : List Key) (s : Server) : Server × Outcome :=
  match exchange fd (.check (keys.map prefixed)) s with
  | (s, some (.checked ready)) => (s, .ready ready)
  | (s, _) => (s, .raised)

def doGet (fd : Fd) (key : Key) (s : Server) : Server × Outcome :=
  match exchange fd (.wait [key]) s with
  | (s, some .stopWaiting) =>
    match exchange fd (.get key) s with
    | (s, some (.vector data)) => (s, .bytes data)
    | (s, _) => (s, .raised)
  | (s, _) => (s, .raised)

/-- One call on an open or a closed connection. -/
def call (fd : Fd) (taken : Bool) (s : Server) : Call → Server × Outcome
  | .set key value => set fd taken key value s
  | .compareSet key expectedValue desiredValue => compareSet fd key expectedValue desiredValue s
  | .add key i => add fd key i s
  | .check keys => check fd keys s
  | .get key => doGet fd (prefixed key) s

/-- The server after the client connected and, if it was asked to, counted itself under
`initKey`. -/
def start (fd : Fd) (waitWorkers : Bool) : Server :=
  let s := Server.initial.step (.accept fd)
  if waitWorkers then s.step (.request fd (.add initKey 1)) else s

end TcpClient

/-- The store behind a server that has just started. -/
def tcpStore (fd : Fd) (waitWorkers : Bool) (taken : Nat → Bool) :
    Machine TcpClient Call Outcome where
  init := { server := TcpClient.start fd waitWorkers, calls := 0 }
  step s c :=
    let (server, outcome) := TcpClient.call fd (taken s.calls) s.server c
    ({ server := server, calls := s.calls + 1 }, outcome)

section Quiet

/-- A server with one client, which is connected. -/
structure Quiet (fd : Fd) (c : Nat) (s : Server) : Prop where
  connections : s.connections fd = some c
  connected : s.connected c = true
  waiting : ∀ key, s.waitingSockets.lookup key = none
  watched : ∀ key, s.watchedSockets key = []

variable {fd : Fd} {c : Nat} {s : Server}

/-- Other contents, and other messages. -/
theorem Quiet.store (h : Quiet fd c s) (contents : Contents) (outbox : List TcpStore.Delivery) :
    Quiet fd c { s with tcpStore := contents, outbox := outbox } :=
  ⟨h.connections, h.connected, h.waiting, h.watched⟩

/-- A send to a connection that is there succeeds. -/
theorem Quiet.send (h : Quiet fd c s) (message : Message) :
    Server.send fd message s = .ok { s with outbox := s.outbox ++ [⟨fd, c, message⟩] } := by
  rw [Server.send, h.connections]
  exact if_pos h.connected

theorem Quiet.wakeup (h : Quiet fd c s)
    (key : Key) : Server.wakeupWaitingClients key s = .ok s := by
  rw [Server.wakeupWaitingClients, h.waiting]

/-- Nobody watches, so a change of a key sends nothing. -/
theorem Quiet.update (h : Quiet fd c s) (key : Key) (type : TcpStore.Change)
    (oldData newData : Bytes) :
    Server.sendKeyUpdatesToClients key type oldData newData s = .ok s := by
  rw [Server.sendKeyUpdatesToClients, h.watched]
  rfl

variable {request : Request}

variable (h : Quiet fd c s)
include h

theorem Quiet.step_ok {t : Server}
    (hquery : Server.query fd request { s with outbox := [] } = .ok t) :
    s.step (.request fd request) = t := by
  rw [Server.step, Server.handle, if_pos (by rw [h.connections]; rfl), Server.serve, hquery]

theorem Quiet.exchange (contents : Contents)
    {message : Message} (hquery : Server.query fd request { s with outbox := [] } =
      .ok { s with tcpStore := contents, outbox := [⟨fd, c, message⟩] }) :
    TcpClient.exchange fd request s =
      ({ s with tcpStore := contents, outbox := [⟨fd, c, message⟩] }, some message) := by
  rw [TcpClient.exchange, h.step_ok hquery]
  simp [sentTo]

theorem Quiet.step_error {t : Server}
    (hquery : Server.query fd request { s with outbox := [] } = .error t) :
    s.step (.request fd request) = t.closeSocket fd := by
  rw [Server.step, Server.handle, if_pos (by rw [h.connections]; rfl), Server.serve, hquery]

theorem Quiet.query_add (key : Key) (i sum : Int)
    (hsum : match s.tcpStore.lookup key with
      | none => sum = i
      | some value => (stoll value).map (addInt64 i) = some sum) :
    Server.query fd (.add key i) { s with outbox := [] } = .ok { s with
        tcpStore := s.tcpStore.insert key (toDecimal sum)
        outbox := [⟨fd, c, .number sum⟩] } := by
  have hstore : Server.storeSum fd key sum { s with outbox := [] } = .ok { s with
      tcpStore := s.tcpStore.insert key (toDecimal sum)
      outbox := [⟨fd, c, .number sum⟩] } := by
    have hquiet := h.store (s.tcpStore.insert key (toDecimal sum))
    rw [Server.storeSum, Server.store, (hquiet []).send, Except.bind, nil_append,
      (hquiet _).wakeup, Except.bind, (hquiet _).update]
  show Server.addHandler fd key i { s with outbox := [] } = _
  rw [Server.addHandler]
  cases hlookup : s.tcpStore.lookup key with
  | none =>
    rw [hlookup] at hsum
    rw [show i = sum from hsum.symm]
    exact hstore
  | some value =>
    rw [hlookup] at hsum
    obtain ⟨old, hold, rfl⟩ := map_eq_some_iff.mp hsum
    dsimp only
    rw [hold]
    exact hstore

theorem Quiet.query_set (key : Key) (data : Bytes) :
    Server.query fd (.set key data) { s with outbox := [] } =
      .ok { s with tcpStore := s.tcpStore.insert key data, outbox := [] } := by
  have hquiet := h.store (s.tcpStore.insert key data) []
  show Server.setHandler key data { s with outbox := [] } = _
  rw [Server.setHandler, Server.store, hquiet.wakeup, Except.bind, hquiet.update]

theorem Quiet.query_assign (key : Key) (type : TcpStore.Change)
    (oldData newData : Bytes) :
    (Server.sendKeyUpdatesToClients key type oldData newData
      (Server.store key newData { s with outbox := [] })).bind (Server.send fd (.vector newData)) =
      .ok { s with
        tcpStore := s.tcpStore.insert key newData
        outbox := [⟨fd, c, .vector newData⟩] } := by
  have hquiet := h.store (s.tcpStore.insert key newData) []
  rw [Server.store, hquiet.update, Except.bind, hquiet.send, nil_append]

end Quiet

section Serves

/-- The server holds the contents of a store for its client. -/
structure Serves (fd : Fd) (c : Nat) (map : Contents) (s : Server) : Prop where
  quiet : Quiet fd c s
  stored : ∀ key, s.tcpStore.lookup (TcpClient.prefixed key) = map.lookup key

/-- `add` finds no value or a number. -/
def addsNumber (map : Contents) : Call → Bool
  | .add key _ => (map.lookup key).all (fun value => (stoll value).isSome)
  | _ => true

variable {fd : Fd} {c : Nat} {map : Contents} {s : Server}

/-- Other messages. -/
theorem Serves.keep (h : Serves fd c map s) (outbox : List TcpStore.Delivery) :
    Serves fd c map { s with outbox := outbox } :=
  ⟨h.quiet.store _ _, h.stored⟩

/-- A new value for one key. -/
theorem Serves.insert (h : Serves fd c map s) (key : Key) (value : Bytes)
    (outbox : List TcpStore.Delivery) : Serves fd c (map.insert key value) { s with
      tcpStore := s.tcpStore.insert (TcpClient.prefixed key) value
      outbox := outbox } := by
  refine ⟨h.quiet.store _ _, fun other => ?_⟩
  by_cases heq : other = key
  · rw [heq, AList.lookup_insert, AList.lookup_insert]
  · have hne : TcpClient.prefixed other ≠ TcpClient.prefixed key :=
      fun hpre => heq (tail_eq_of_cons_eq hpre)
    rw [AList.lookup_insert_ne hne, AList.lookup_insert_ne heq, h.stored]

theorem Serves.congr {map' : Contents} (h : Serves fd c map s)
    (heq : ∀ key, map'.lookup key = map.lookup key) : Serves fd c map' s :=
  ⟨h.quiet, fun key => (h.stored key).trans (heq key).symm⟩

theorem sumWith_of_number {value : Bytes} {i old : Int} (h : stoll value = some old) :
    sumWith i value = some (addInt64 i old) := by
  have hne : value ≠ [] := by
    rintro rfl
    cases h
  rw [sumWith, if_neg hne, h, map_some]

theorem serves_step {call : Call} (h : Serves fd c map s) (hdomain : inDomain map call = true)
    (hnumber : addsNumber map call = true) (taken : Bool) :
    (TcpClient.call fd taken s call).2 = (HashStore.step map call).2 ∧
      Serves fd c (HashStore.step map call).1 (TcpClient.call fd taken s call).1 := by
  cases call with
  | set key value =>
    rw [TcpClient.call, TcpClient.set, h.quiet.step_ok (h.quiet.query_set _ _)]
    exact ⟨if_pos (.inl (by rw [h.quiet.connections]; rfl)), h.insert key value []⟩
  | compareSet key expectedValue desiredValue =>
    have hassign := fun type => h.quiet.query_assign (TcpClient.prefixed key) type expectedValue
      desiredValue
    have hquery : Server.query fd (.compareSet (TcpClient.prefixed key) expectedValue
        desiredValue) { s with outbox := [] } = Server.compareSetHandler fd
          (TcpClient.prefixed key) expectedValue desiredValue { s with outbox := [] } := rfl
    rw [Server.compareSetHandler] at hquery
    simp only [h.stored key] at hquery
    rw [TcpClient.call, TcpClient.compareSet, HashStore.step, HashStore.compareSet]
    cases hlookup : map.lookup key with
    | none =>
      simp only [hlookup] at hquery
      by_cases hexpected : expectedValue = []
      · rw [if_pos hexpected, hassign] at hquery
        rw [h.quiet.exchange _ hquery]
        rw [if_pos hexpected]
        exact ⟨rfl, h.insert key desiredValue _⟩
      · rw [if_neg hexpected, (h.keep []).quiet.send, List.nil_append] at hquery
        rw [h.quiet.exchange s.tcpStore hquery]
        rw [if_neg hexpected]
        exact ⟨rfl, h.keep _⟩
    | some value =>
      simp only [hlookup] at hquery
      by_cases hexpected : value = expectedValue
      · rw [if_pos hexpected, hassign] at hquery
        rw [h.quiet.exchange _ hquery]
        dsimp only
        rw [if_pos hexpected]
        exact ⟨rfl, h.insert key desiredValue _⟩
      · rw [if_neg hexpected, (h.keep []).quiet.send, List.nil_append] at hquery
        rw [h.quiet.exchange s.tcpStore hquery]
        dsimp only
        rw [if_neg hexpected]
        exact ⟨rfl, h.keep _⟩
  | add key i =>
    obtain ⟨sum, hsum, hhash⟩ : ∃ sum, (match s.tcpStore.lookup (TcpClient.prefixed key) with
        | none => sum = i
        | some value => (stoll value).map (addInt64 i) = some sum) ∧
        sumWith i (map.bracket key).2 = some sum := by
      rw [h.stored, bracket_snd]
      rw [addsNumber] at hnumber
      cases hlookup : map.lookup key with
      | none => exact ⟨i, rfl, if_pos rfl⟩
      | some value =>
        rw [hlookup] at hnumber
        obtain ⟨old, hold⟩ := Option.isSome_iff_exists.mp hnumber
        refine ⟨addInt64 i old, ?_, sumWith_of_number hold⟩
        show (stoll value).map (addInt64 i) = _
        rw [hold, Option.map_some]
    rw [TcpClient.call, TcpClient.add, h.quiet.exchange _ (h.quiet.query_add _ _ _ hsum),
      HashStore.step, HashStore.add]
    simp only [hhash]
    exact ⟨trivial, (h.insert key (toDecimal sum) _).congr (lookup_bracket_insert _)⟩
  | check keys =>
    have hready : Server.checkKeys (keys.map TcpClient.prefixed) s =
        keys.all (fun key => key ∈ map) := by
      have hmem : ∀ key, TcpClient.prefixed key ∈ s.tcpStore ↔ key ∈ map := by
        intro key
        rw [mem_iff_lookup, mem_iff_lookup, h.stored]
      rw [Server.checkKeys, List.all_map]
      simp only [Function.comp_def, hmem]
    have hquery : Server.query fd (.check (keys.map TcpClient.prefixed)) { s with outbox := [] } =
        .ok { s with outbox := [⟨fd, c, .checked (keys.all (fun key => key ∈ map))⟩] } := by
      rw [← hready]
      exact (h.keep []).quiet.send _
    rw [TcpClient.call, TcpClient.check, h.quiet.exchange s.tcpStore hquery]
    exact ⟨rfl, h.keep _⟩
  | get key =>
    obtain ⟨value, hvalue⟩ := mem_iff_lookup.mp (of_decide_eq_true hdomain)
    have hstored : s.tcpStore.lookup (TcpClient.prefixed key) = some value :=
      (h.stored key).trans hvalue
    have hready : Server.checkKeys [TcpClient.prefixed key] s = true := by
      rw [Server.checkKeys, List.all_cons, List.all_nil, Bool.and_true]
      exact decide_eq_true (mem_iff_lookup.mpr ⟨value, hstored⟩)
    have hwait : Server.query fd (.wait [TcpClient.prefixed key]) { s with outbox := [] } =
        .ok { s with outbox := [⟨fd, c, .stopWaiting⟩] } :=
      (if_pos hready).trans ((h.keep []).quiet.send _)
    have hget : Server.query fd (.get (TcpClient.prefixed key)) { s with outbox := [] } =
        .ok { s with outbox := [⟨fd, c, .vector value⟩] } := by
      show Server.getHandler fd (TcpClient.prefixed key) { s with outbox := [] } = _
      rw [Server.getHandler]
      simp only [hstored]
      exact (h.keep []).quiet.send _
    rw [TcpClient.call, TcpClient.doGet, h.quiet.exchange s.tcpStore hwait]
    dsimp only
    rw [(h.keep [⟨fd, c, .stopWaiting⟩]).quiet.exchange s.tcpStore hget, HashStore.step,
      HashStore.get, hvalue]
    exact ⟨rfl, h.keep _⟩

theorem closed_step {call : Call} (h : Serves fd c map s) (hnumber : addsNumber map call = false)
    (taken : Bool) : (TcpClient.call fd taken s call).2 = .raised ∧
      (TcpClient.call fd taken s call).1.connections fd = none ∧
      ∃ key i value, call = .add key i ∧ map.lookup key = some value ∧ stoll value = none := by
  cases call with
  | add key i =>
    rw [addsNumber] at hnumber
    cases hlookup : map.lookup key with
    | none =>
      rw [hlookup] at hnumber
      cases hnumber
    | some value =>
      rw [hlookup] at hnumber
      have hstoll : stoll value = none := by
        cases hold : stoll value with
        | none => rfl
        | some old =>
          rw [all_some, hold] at hnumber
          cases hnumber
      have hquery : Server.query fd (.add (TcpClient.prefixed key) i) { s with outbox := [] } =
          .error { s with outbox := [] } := by
        show Server.addHandler fd (TcpClient.prefixed key) i { s with outbox := [] } = _
        rw [Server.addHandler]
        simp only [h.stored key, hlookup, hstoll]
      rw [TcpClient.call, TcpClient.add, TcpClient.exchange, h.quiet.step_error hquery]
      exact ⟨rfl, update_self _ _ _, key, i, value, rfl, hlookup, hstoll⟩
  | _ => cases hnumber

theorem check_closed (h : s.connections fd = none) (taken : Bool) (keys : List Key) :
    (TcpClient.call fd taken s (.check keys)).2 = .raised := by
  have hstep : ∀ request, s.step (.request fd request) = { s with outbox := [] } := by
    intro request
    rw [Server.step, Server.handle]
    simp only [h]
    exact if_neg Bool.false_ne_true
  rw [TcpClient.call, TcpClient.check, TcpClient.exchange, hstep]
  rfl

theorem serves_start (fd : Fd) (waitWorkers : Bool) :
    Serves fd 0 ∅ (TcpClient.start fd waitWorkers) := by
  have hquiet : Quiet fd 0 (Server.initial.step (.accept fd)) :=
    ⟨update_self _ _ _, rfl, fun _ => rfl, fun _ => rfl⟩
  cases waitWorkers with
  | false => exact ⟨hquiet, fun _ => rfl⟩
  | true =>
    have hquery := hquiet.query_add TcpClient.initKey 1 1 rfl
    have hstart : TcpClient.start fd true = _ := hquiet.step_ok hquery
    rw [hstart]
    refine ⟨hquiet.store _ _, fun key => ?_⟩
    have hne : TcpClient.prefixed key ≠ TcpClient.initKey := by
      intro heq
      exact absurd (head_eq_of_cons_eq heq) (by decide)
    rw [AList.lookup_insert_ne hne]
    rfl

end Serves

end PyTorchCore.Stores
