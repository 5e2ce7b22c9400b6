import Mathlib.Data.Nat.Digits.Defs
import PyTorchCore.Lib.Machine
import PyTorchCore.Lib.Multimap

/-!
# The server of the TCP store

`TCPStoreMasterDaemon`: the maps of the server, the handlers of the requests and the clean-up of a
connection. One thread serves all clients, so a request is handled as a whole.

A handler is a function to `Except Server Server`, where an error carries the state in which the
exception left the server.

A connection is known to the server by its socket, whose number is free again after the connection
is closed. So each connection gets a number of its own.
-/

namespace PyTorchCore.TcpStore

open Lib

/-- Strings and vectors of bytes. -/
abbrev Bytes := List UInt8

abbrev Key := Bytes

/-- A file descriptor of a socket. -/
abbrev Fd := Nat

section Numbers

def isSpace (b : UInt8) : Bool :=
  b = 32 ∨ 9 ≤ b ∧ b ≤ 13

def isDigit (b : UInt8) : Bool :=
  48 ≤ b ∧ b ≤ 57

/-- The sign in front of a number, and the rest. -/
def splitSign : Bytes → Bool × Bytes
  | 45 :: rest => (true, rest)
  | 43 :: rest => (false, rest)
  | rest => (false, rest)

/-- `std::stoll`, which throws if there are no digits or the number does not fit. -/
def stoll (data : Bytes) : Option Int :=
  let (negative, rest) := splitSign (data.dropWhile isSpace)
  let digits := rest.takeWhile isDigit
  let magnitude : Nat := digits.foldl (fun m d => 10 * m + (d.toNat - 48)) 0
  let value : Int := if negative then -magnitude else magnitude
  if digits = [] then none
  else if -2 ^ 63 ≤ value ∧ value < 2 ^ 63 then some value else none

/-- The decimal digits of a number. -/
def decimal (k : Nat) : Bytes :=
  (Nat.toDigits 10 k).map (fun c => UInt8.ofNat c.toNat)

/-- `std::to_string` of an `int64_t`. -/
def toDecimal : Int → Bytes
  | .ofNat k => decimal k
  | .negSucc k => 45 :: decimal (k + 1)

/-- `+` of `int64_t`. -/
def addInt64 (a b : Int) : Int :=
  (a + b).bmod (2 ^ 64)

/-- `--` on a `size_t`. -/
def decrement (k : Nat) : Nat :=
  if k = 0 then 2 ^ 64 - 1 else k - 1

/-- An `int` counter after `k` increments, stored in a `size_t`. -/
def intToSize (k : Nat) : Nat :=
  ((BitVec.ofNat 32 k).signExtend 64).toNat

end Numbers

/-- `QueryType`, with the arguments. -/
inductive Request
  | set (key : Key) (newData : Bytes)
  | compareSet (key : Key) (currentValue newValue : Bytes)
  | get (key : Key)
  | add (key : Key) (addVal : Int)
  | check (keys : List Key)
  | wait (keys : List Key)
  | getNumKeys
  | watchKey (key : Key)
  | deleteKey (key : Key)
deriving DecidableEq

/-- `WatchResponseType` of a change. -/
inductive Change
  | keyUpdated
  | keyCreated
  | keyDeleted
deriving DecidableEq

/-- What the server sends. -/
inductive Message
  | stopWaiting
  | checked (ready : Bool)
  | number (value : Int)
  | vector (data : Bytes)
  | callbackRegistered
  | update (type : Change) (key : Key) (oldData newData : Bytes)
deriving DecidableEq

/-- A message with its socket and with the connection that receives it. -/
structure Delivery where
  fd : Fd
  connection : Nat
  message : Message
deriving DecidableEq

/-- The server.  `connections` are the open sockets, and `outbox` is what was sent by the
current event. -/
structure Server where
  tcpStore : AList (fun _ : Key => Bytes)
  waitingSockets : Multimap Key Fd
  keysAwaited : Fd → Nat
  watchedSockets : Key → List Fd
  connections : Fd → Option Nat
  connected : Nat → Bool
  nextConnection : Nat
  outbox : List Delivery

def Server.initial : Server where
  tcpStore := ∅
  waitingSockets := ∅
  keysAwaited _ := 0
  watchedSockets _ := []
  connections _ := none
  connected _ := false
  nextConnection := 0
  outbox := []

namespace Server

/-- `tcputil::send*`: throws if the socket is closed or its client is gone. -/
def send (fd : Fd) (message : Message) (s : Server) : Except Server Server :=
  match s.connections fd with
  | none => .error s
  | some c =>
    if s.connected c then .ok { s with outbox := s.outbox ++ [⟨fd, c, message⟩] } else .error s

/-- The loop of `wakeupWaitingClients`. -/
def wakeupSockets : List Fd → Server → Except Server Server
  | [], s => .ok s
  | fd :: fds, s =>
    let awaited := decrement (s.keysAwaited fd)
    let s := { s with keysAwaited := Function.update s.keysAwaited fd awaited }
    (if awaited = 0 then send fd .stopWaiting s else .ok s).bind (wakeupSockets fds)

def wakeupWaitingClients (key : Key) (s : Server) : Except Server Server :=
  match s.waitingSockets.lookup key with
  | none => .ok s
  | some fds => (wakeupSockets fds s).map (fun s =>
    { s with waitingSockets := s.waitingSockets.erase key })

def sendAll (message : Message) : List Fd → Server → Except Server Server
  | [], s => .ok s
  | fd :: fds, s => (send fd message s).bind (sendAll message fds)

def sendKeyUpdatesToClients (key : Key) (type : Change) (oldData newData : Bytes) (s : Server) :
    Except Server Server :=
  sendAll (.update type key oldData newData) (s.watchedSockets key) s

/-- The assignment to `tcpStore_[key]`. -/
def store (key : Key) (newData : Bytes) (s : Server) : Server :=
  { s with tcpStore := s.tcpStore.insert key newData }

/-- The change that an assignment makes. -/
def changeOf (key : Key) (s : Server) : Change :=
  if key ∈ s.tcpStore then .keyUpdated else .keyCreated

def setHandler (key : Key) (newData : Bytes) (s : Server) : Except Server Server :=
  (wakeupWaitingClients key (store key newData s)).bind
    (sendKeyUpdatesToClients key (changeOf key s) ((s.tcpStore.lookup key).getD []) newData)

def compareSetHandler (fd : Fd) (key : Key) (currentValue newValue : Bytes) (s : Server) :
    Except Server Server :=
  match s.tcpStore.lookup key with
  | none =>
    if currentValue = [] then
      (sendKeyUpdatesToClients key .keyCreated currentValue newValue (store key newValue s)).bind
        (send fd (.vector newValue))
    else send fd (.vector currentValue) s
  | some value =>
    if value = currentValue then
      (sendKeyUpdatesToClients key .keyUpdated currentValue newValue (store key newValue s)).bind
        (send fd (.vector newValue))
    else send fd (.vector value) s

/-- The part of `addHandler` behind the sum. -/
def storeSum (fd : Fd) (key : Key) (sum : Int) (s : Server) : Except Server Server :=
  ((send fd (.number sum) (store key (toDecimal sum) s)).bind (wakeupWaitingClients key)).bind
    (sendKeyUpdatesToClients key (changeOf key s) ((s.tcpStore.lookup key).getD [])
      (toDecimal sum))

def addHandler (fd : Fd) (key : Key) (addVal : Int) (s : Server) : Except Server Server :=
  match s.tcpStore.lookup key with
  | none => storeSum fd key addVal s
  | some value =>
    match stoll value with
    | none => .error s
    | some old => storeSum fd key (addInt64 addVal old) s

/-- `getHandler`; `at` throws if there is no such key. -/
def getHandler (fd : Fd) (key : Key) (s : Server) : Except Server Server :=
  match s.tcpStore.lookup key with
  | none => .error s
  | some data => send fd (.vector data) s

def getNumKeysHandler (fd : Fd) (s : Server) : Except Server Server :=
  send fd (.number s.tcpStore.keys.length) s

def deleteHandler (fd : Fd) (key : Key) (s : Server) : Except Server Server :=
  match s.tcpStore.lookup key with
  | none => send fd (.number 0) s
  | some oldData =>
    (sendKeyUpdatesToClients key .keyDeleted oldData [] s).bind (fun s =>
      send fd (.number 1) { s with tcpStore := s.tcpStore.erase key })

def checkKeys (keys : List Key) (s : Server) : Bool :=
  keys.all (fun key => key ∈ s.tcpStore)

def checkHandler (fd : Fd) (keys : List Key) (s : Server) : Except Server Server :=
  send fd (.checked (s.checkKeys keys)) s

/-- The keys of a request that are not in the store. -/
def missing (keys : List Key) (s : Server) : List Key :=
  keys.filter (fun key => key ∉ s.tcpStore)

def waitHandler (fd : Fd) (keys : List Key) (s : Server) : Except Server Server :=
  if s.checkKeys keys then send fd .stopWaiting s
  else
    .ok { s with
      waitingSockets := (s.missing keys).foldl (fun m key => m.push key fd) s.waitingSockets
      keysAwaited := Function.update s.keysAwaited fd (intToSize (s.missing keys).length) }

def watchHandler (fd : Fd) (key : Key) (s : Server) : Except Server Server :=
  send fd .callbackRegistered
    { s with watchedSockets := Function.update s.watchedSockets key (s.watchedSockets key ++ [fd]) }

def query (fd : Fd) (request : Request) : Server → Except Server Server :=
  match request with
  | .set key newData => setHandler key newData
  | .compareSet key currentValue newValue => compareSetHandler fd key currentValue newValue
  | .get key => getHandler fd key
  | .add key addVal => addHandler fd key addVal
  | .check keys => checkHandler fd keys
  | .wait keys => waitHandler fd keys
  | .getNumKeys => getNumKeysHandler fd
  | .watchKey key => watchHandler fd key
  | .deleteKey key => deleteHandler fd key

/-- The clean-up of `queryFds` after an exception. -/
def closeSocket (fd : Fd) (s : Server) : Server :=
  { s with
    waitingSockets := s.waitingSockets.remove fd
    keysAwaited := Function.update s.keysAwaited fd 0
    connections := Function.update s.connections fd none }

/-- `queryFds` for a socket with a request. -/
def serve (fd : Fd) (request : Request) (s : Server) : Server :=
  match query fd request s with
  | .ok s => s
  | .error s => closeSocket fd s

end Server

/-- What can happen to the server. -/
inductive Event
  | accept (fd : Fd)
  | request (fd : Fd) (request : Request)
  | disconnect (connection : Nat)
  | hangUp (fd : Fd)
deriving DecidableEq

namespace Server

/-- The client of a socket is there. -/
def alive (s : Server) (fd : Fd) : Bool :=
  match s.connections fd with
  | none => false
  | some c => s.connected c

/-- What an event does.  A socket that is open is not given to a new connection, only
open sockets have requests, and a socket hangs up only if its client is gone. -/
def handle (s : Server) : Event → Server
  | .accept fd =>
    match s.connections fd with
    | some _ => s
    | none => { s with
        connections := Function.update s.connections fd (some s.nextConnection)
        connected := Function.update s.connected s.nextConnection true
        nextConnection := s.nextConnection + 1 }
  | .request fd request => if (s.connections fd).isSome then s.serve fd request else s
  | .disconnect c => { s with connected := Function.update s.connected c false }
  | .hangUp fd => if (s.connections fd).isSome ∧ ¬ s.alive fd then s.closeSocket fd else s

/-- An event, with nothing in the outbox before it. -/
def step (s : Server) (e : Event) : Server :=
  handle { s with outbox := [] } e

end Server

end PyTorchCore.TcpStore
