import PyTorchCore.TcpStore.ClientFailures

/-!
# The client of the TCP store

`TCPStore` on one connection: each call sends a request and reads the bytes of its response. A
wait sets the receive timeout of the socket, which stays set; from then on any call gives up when
its response does not arrive in time, and its request stays with the server.

A run interleaves the calls of the client, the server handling its requests in order, the client
reading, and everything else that happens at the server. Every byte that the server sends is
marked with the request that it answers, which neither side can see.
-/

namespace PyTorchCore.TcpStore

open Lib
open List
open Lib.Multimap

section Encoding

/-- A `uint64_t` on the wire. -/
def encodeSize (k : Nat) : Bytes :=
  [UInt8.ofNat k, UInt8.ofNat (k / 2 ^ 8), UInt8.ofNat (k / 2 ^ 16), UInt8.ofNat (k / 2 ^ 24),
    UInt8.ofNat (k / 2 ^ 32), UInt8.ofNat (k / 2 ^ 40), UInt8.ofNat (k / 2 ^ 48),
    UInt8.ofNat (k / 2 ^ 56)]

/-- A `uint64_t` from the wire. -/
def decodeSize (bytes : Bytes) : Nat :=
  bytes.foldr (fun b k => b.toNat + 256 * k) 0

/-- `tcputil::sendVector` and `tcputil::sendString`. -/
def encodeVector (data : Bytes) : Bytes :=
  encodeSize data.length ++ data

/-- `WatchResponseType`. -/
def Change.byte : Change → UInt8
  | .keyUpdated => 0
  | .keyCreated => 1
  | .keyDeleted => 2

def Message.bytes : Message → Bytes
  | .stopWaiting => [0]
  | .checked ready => [if ready then 0 else 1]
  | .number value => encodeSize (value % 2 ^ 64).toNat
  | .vector data => encodeVector data
  | .callbackRegistered => [3]
  | .update type key oldData newData =>
    type.byte :: (encodeVector key ++ encodeVector oldData ++ encodeVector newData)

/-- The size of a vector fits in a `size_t`. -/
def Message.fits : Message → Bool
  | .vector data => data.length < 2 ^ 64
  | _ => true

end Encoding

section Calls

/-- What a call reads: `WaitResponseType`, with the key of the `GET` that follows in `get`,
`CheckResponseType`, an `int64_t`, or a vector. -/
inductive Awaiting
  | stopWaiting (next : Option Key)
  | checked
  | number
  | vector
deriving DecidableEq

/-- The calls of `TCPStore`. -/
inductive Call
  | set (key : Key) (data : Bytes)
  | get (key : Key)
  | add (key : Key) (value : Int)
  | compareSet (key : Key) (expectedValue desiredValue : Bytes)
  | check (keys : List Key)
  | wait (keys : List Key)
  | deleteKey (key : Key)
  | getNumKeys
deriving DecidableEq

def Call.request : Call → Request
  | .set key data => .set key data
  | .get key => .wait [key]
  | .add key value => .add key value
  | .compareSet key expectedValue desiredValue => .compareSet key expectedValue desiredValue
  | .check keys => .check keys
  | .wait keys => .wait keys
  | .deleteKey key => .deleteKey key
  | .getNumKeys => .getNumKeys

/-- What a call reads first. -/
def Call.awaiting : Call → Option Awaiting
  | .set _ _ => none
  | .get key => some (.stopWaiting (some key))
  | .add _ _ => some .number
  | .compareSet _ _ _ => some .vector
  | .check _ => some .checked
  | .wait _ => some (.stopWaiting none)
  | .deleteKey _ => some .number
  | .getNumKeys => some .number

/-- `doWait`. -/
def Awaiting.isWait : Awaiting → Bool
  | .stopWaiting _ => true
  | _ => false

/-- The number of bytes that a read takes, if they have arrived. -/
def Awaiting.responseLength (a : Awaiting) (bytes : Bytes) : Option Nat :=
  let expected := match a with
    | .stopWaiting _ => 1
    | .checked => 1
    | .number => 8
    | .vector => 8 + decodeSize (bytes.take 8)
  if 8 ≤ bytes.length ∨ a ≠ .vector then
    if expected ≤ bytes.length then some expected else none
  else none

/-- A message of the kind that is read. -/
def Awaiting.accepts : Awaiting → Message → Bool
  | .stopWaiting _, .stopWaiting => true
  | .checked, .checked _ => true
  | .number, .number _ => true
  | .vector, .vector _ => true
  | _, _ => false

theorem decodeSize_encodeSize {k : Nat} (h : k < 2 ^ 64) : decodeSize (encodeSize k) = k := by
  simp only [decodeSize, encodeSize, foldr_cons, foldr_nil, UInt8.toNat_ofNat']
  omega

theorem responseLength_nil (a : Awaiting) : a.responseLength [] = none := by
  cases a <;> rfl

/-- A response has the length that the client expects. -/
theorem Message.responseLength_bytes {a : Awaiting} {message : Message}
    (haccepts : a.accepts message = true) (hfits : message.fits = true) :
    a.responseLength message.bytes = some message.bytes.length := by
  cases a with
  | stopWaiting next =>
    cases message <;> first | rfl | cases haccepts
  | checked =>
    cases message <;> first | rfl | cases haccepts
  | number =>
    cases message <;> first | rfl | cases haccepts
  | vector =>
    cases message with
    | vector data =>
      have hsize : (encodeVector data).take 8 = encodeSize data.length := rfl
      have hlength : (encodeVector data).length = 8 + data.length := by
        rw [encodeVector, length_append]
        rfl
      have hdecode := decodeSize_encodeSize (of_decide_eq_true hfits)
      simp only [Awaiting.responseLength, Message.bytes, hsize, hdecode, hlength]
      rw [if_pos (.inl (Nat.le_add_right _ _)), if_pos le_rfl]
    | _ => cases haccepts

end Calls

def sentTo (fd : Fd) (outbox : List Delivery) : List Message :=
  (outbox.filter (fun d => d.fd = fd)).map Delivery.message

/-- The server and one client. `outgoing` are the requests that were not handled yet, `incoming`
the bytes that the client has not read, with the requests that they answer, and `call` is the
request whose response it waits for. `timed` is that the socket has a receive timeout,
`registered` is the `WAIT` whose keys the server counts, and `responses` are the bytes that it
sent for each request. -/
structure Session where
  server : Server
  link : Option (Fd × Nat)
  outgoing : List (Nat × Request)
  incoming : List (Option Nat × UInt8)
  call : Option (Nat × Awaiting)
  timed : Bool
  sent : Nat
  registered : Option Nat
  responses : Nat → Bytes

/-- What happens in a session. -/
inductive Action
  | connect (fd : Fd)
  | call (c : Call)
  | serve
  | receive
  | timeout
  | other (e : Event)
deriving DecidableEq

namespace Session

/-- A request is sent; `setTimeout` comes first in `doWait`. -/
def send (request : Request) (awaiting : Option Awaiting) (w : Session) : Session :=
  { w with
    outgoing := w.outgoing ++ [(w.sent, request)]
    call := awaiting.map (fun a => (w.sent, a))
    timed := w.timed || awaiting.any Awaiting.isWait
    sent := w.sent + 1 }

/-- The client is connected. -/
def linked (w : Session) : Option Fd :=
  match w.link with
  | none => none
  | some (fd, c) => if w.server.connections fd = some c then some fd else none

/-- The request that a message answers.  A `STOP_WAITING` that is not sent at once answers
the `WAIT` that the server counts. -/
def tagOf (w : Session) (current : Option (Nat × Request)) : Message → Option Nat
  | .stopWaiting =>
    match current with
    | some (id, .wait keys) => if w.server.checkKeys keys then some id else w.registered
    | _ => w.registered
  | .update _ _ _ _ => none
  | _ => current.map Prod.fst

/-- The bytes of a message reach the client. -/
def arrive (tag : Option Nat) (message : Message) (w : Session) : Session :=
  { w with
    incoming := w.incoming ++ message.bytes.map (fun b => (tag, b))
    responses := match tag with
      | none => w.responses
      | some id => Function.update w.responses id (w.responses id ++ message.bytes) }

/-- An event at the server, which may be the handling of a request of the client. -/
def deliver (current : Option (Nat × Request)) (e : Event) (w : Session) : Session :=
  let messages := match w.linked with
    | none => []
    | some fd => sentTo fd (w.server.step e).outbox
  messages.foldl (fun v message => arrive (w.tagOf current message) message v)
    { w with server := w.server.step e }

/-- The `WAIT` that the server counts after a request of the client was handled. -/
def register (id : Nat) (request : Request) (w : Session) : Option Nat :=
  match request with
  | .wait keys => if w.server.checkKeys keys then w.registered else some id
  | _ => w.registered

/-- The server handles the next request of the client. -/
def serveNext (w : Session) : Session :=
  match w.linked, w.outgoing with
  | some fd, (id, request) :: rest =>
    { deliver (some (id, request)) (.request fd request) { w with outgoing := rest } with
      registered := w.register id request }
  | _, _ => w

/-- The client reads its response, if it has arrived, and goes on. -/
def read (w : Session) : Session :=
  match w.call with
  | none => w
  | some (_, a) =>
    match a.responseLength (w.incoming.map Prod.snd) with
    | none => w
    | some k =>
      let v := { w with incoming := w.incoming.drop k, call := none }
      match a with
      | .stopWaiting (some key) =>
        if (w.incoming.map Prod.snd).head? = some 0 then v.send (.get key) (some .vector) else v
      | _ => v

/-- The receive of a call times out. -/
def giveUp (w : Session) : Session :=
  if w.timed then { w with call := none } else w

def isOther (w : Session) : Event → Bool
  | .request fd _ => w.linked ≠ some fd
  | .disconnect c => w.link.map Prod.snd ≠ some c
  | _ => true

def connect (fd : Fd) (w : Session) : Session :=
  if w.link = none ∧ w.server.connections fd = none then
    { w with
      server := w.server.step (.accept fd)
      link := some (fd, w.server.nextConnection) }
  else w

def next (w : Session) : Action → Session
  | .connect fd => w.connect fd
  | .call c => if w.link.isSome ∧ w.call = none then w.send c.request c.awaiting else w
  | .serve => w.serveNext
  | .receive => w.read
  | .timeout => w.giveUp
  | .other e => if w.isOther e then w.deliver none e else w

/-- A client that is not connected yet. -/
def initial : Session where
  server := Server.initial
  link := none
  outgoing := []
  incoming := []
  call := none
  timed := false
  sent := 0
  registered := none
  responses _ := []

end Session

/-- The runs of a client and the server. -/
def connection : Machine Session Action Unit where
  init := Session.initial
  step w a := (w.next a, ())

/-- What a call reads is the response to its own request. -/
def Matched (w : Session) : Action → Prop
  | .receive => ∀ id a k, w.call = some (id, a) →
      a.responseLength (w.incoming.map Prod.snd) = some k →
      w.incoming.take k = (w.responses id).map (fun b => (some id, b))
  | _ => True

end PyTorchCore.TcpStore
