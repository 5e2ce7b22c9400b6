import PyTorchCore.TcpStore.WakeUps

/-!
# Failures of clients

A handler sends to clients other than the one that it serves, and an exception closes the
connection of the client that is served. So a client that is gone can hurt others: its socket
stays in `watchedSockets_`.
-/

namespace PyTorchCore.TcpStore

open Lib Request
open Option Function List
open Lib.Multimap

/-- The connections that asked for updates of a key. -/
abbrev Watches := List (Nat × Key)

section Requests

/-- The request is one that the store can execute: `GET` needs a key, and `ADD` needs a
number. -/
def Request.valid (s : Server) : Request → Bool
  | .get key => key ∈ s.tcpStore
  | .add key _ => ((s.tcpStore.lookup key).all (fun value => (stoll value).isSome))
  | _ => true

/-- The key whose watchers are told. -/
def Request.updates (s : Server) : Request → Option Key
  | .set key _ => some key
  | .add key addVal => if (Request.add key addVal).valid s then some key else none
  | .compareSet key currentValue _ =>
    if (s.tcpStore.lookup key).getD [] = currentValue then some key else none
  | .deleteKey key => if key ∈ s.tcpStore then some key else none
  | _ => none

/-- The messages that only the client that is served gets. -/
def Message.isResponse : Message → Bool
  | .stopWaiting => false
  | .update _ _ _ _ => false
  | _ => true

def Request.answer (s : Server) : Request → Option Message
  | .set _ _ => none
  | .compareSet key currentValue newValue =>
    match s.tcpStore.lookup key with
    | none => some (.vector (if currentValue = [] then newValue else currentValue))
    | some value => some (.vector (if value = currentValue then newValue else value))
  | .get key => (s.tcpStore.lookup key).map Message.vector
  | .add key addVal =>
    match s.tcpStore.lookup key with
    | none => some (.number addVal)
    | some value => (stoll value).map (fun old => .number (addInt64 addVal old))
  | .check keys => some (.checked (s.checkKeys keys))
  | .wait keys => if s.checkKeys keys then some .stopWaiting else none
  | .getNumKeys => some (.number s.tcpStore.keys.length)
  | .watchKey _ => some .callbackRegistered
  | .deleteKey key => some (.number (if key ∈ s.tcpStore then 1 else 0))

end Requests

section Locality

/-- The server, the pending waits and the watches. -/
structure Observed where
  server : Server
  pending : Pending
  watches : Watches

def watched (s : Server) (e : Event) (watches : Watches) : Watches :=
  match e with
  | .request fd (.watchKey key) =>
    match s.connections fd with
    | none => watches
    | some c => (c, key) :: watches
  | _ => watches

/-- The server with what its clients asked for. -/
def clients : Machine Observed Event (List Delivery) where
  init := ⟨Server.initial, [], []⟩
  step w e := (⟨w.server.step e, observe w.server (w.server.step e) e w.pending,
    watched w.server e w.watches⟩, (w.server.step e).outbox)

/-- A socket that watches a key belongs to a connection that asked for it, and the client
is there. -/
def watcherThere (s : Server) (watches : Watches) (key : Key) (fd : Fd) : Bool :=
  match s.connections fd with
  | none => false
  | some c => s.connected c ∧ (c, key) ∈ watches

/-- The condition on an event: the wake-ups are safe, the sockets that watch a changed key are
those of clients that asked for it, and a client makes requests that can be executed. -/
def ClientsSafe (w : Observed) (e : Event) : Prop :=
  WakeUpSafe w.server e ∧
    match e with
    | .request fd request =>
      (∀ key ∈ request.updates w.server, ∀ g ∈ w.server.watchedSockets key,
        watcherThere w.server w.watches key g = true) ∧
      (w.server.alive fd = true → request.valid w.server = true)
    | _ => True

/-- The connection asked for the message. -/
def AskedFor (w : Observed) (e : Event) (d : Delivery) : Prop :=
  match d.message with
  | .update _ key _ _ => (d.connection, key) ∈ w.watches
  | .stopWaiting => w.server.connections d.fd = some d.connection ∧
      ((∃ keys, e = .request d.fd (.wait keys)) ∨ ∃ keys, (d.fd, keys) ∈ w.pending)
  | _ => w.server.connections d.fd = some d.connection ∧ ∃ request, e = .request d.fd request

/-- What an event may do to the clients that are there: requests are executed and answered,
connections are kept, waits end when they should, and messages go to those who asked for them. -/
structure Local (w : Observed) (e : Event) : Prop where
  executed : ∀ fd request c, e = .request fd request → w.server.connections fd = some c →
    w.server.connected c = true →
    Server.query fd request { w.server with outbox := [] } = .ok (w.server.step e) ∧
      ∀ message ∈ request.answer w.server, ⟨fd, c, message⟩ ∈ (w.server.step e).outbox
  kept : ∀ fd c, w.server.connections fd = some c → w.server.connected c = true →
    (w.server.step e).connections fd = some c
  woken : ∀ fd, (Server.stops (w.server.step e).outbox).count fd =
    (owed w.server (w.server.step e) e w.pending).count fd
  asked : ∀ d ∈ (w.server.step e).outbox, AskedFor w e d

end Locality

namespace Server

/-- What a handler does to the outbox, when it changes neither the connections nor who
watches. -/
structure Emits (P : Delivery → Prop) (s t : Server) : Prop where
  outbox : ∃ extra, t.outbox = s.outbox ++ extra ∧
    ∀ d ∈ extra, P d ∧ s.connections d.fd = some d.connection
  connections : t.connections = s.connections
  connected : t.connected = s.connected
  watched : t.watchedSockets = s.watchedSockets

section Emits

variable {P Q : Delivery → Prop} {s t u : Server} {key : Key}

theorem Sends.emits (h : Sends P s t) : Emits P s t := by
  obtain ⟨extra, rfl, hextra⟩ := h
  exact ⟨⟨extra, rfl, fun d hd => ⟨(hextra d hd).1, (hextra d hd).2.1⟩⟩, rfl, rfl, rfl⟩

theorem Emits.trans (h : Emits P s t) (h' : Emits P t u) : Emits P s u := by
  obtain ⟨extra, heq, hextra⟩ := h.outbox
  obtain ⟨extra', heq', hextra'⟩ := h'.outbox
  rw [h.connections] at hextra'
  refine ⟨⟨extra ++ extra', by rw [heq', heq, append_assoc], fun d hd => ?_⟩,
    h'.connections.trans h.connections, h'.connected.trans h.connected,
    h'.watched.trans h.watched⟩
  rcases mem_append.mp hd with hd | hd
  · exact hextra d hd
  · exact hextra' d hd

/-- Sends under a weaker condition. -/
theorem Emits.mono (h : Emits P s t) (himp : ∀ d, P d → Q d) : Emits Q s t := by
  obtain ⟨extra, heq, hextra⟩ := h.outbox
  exact ⟨⟨extra, heq, fun d hd => ⟨himp d (hextra d hd).1, (hextra d hd).2⟩⟩, h.connections,
    h.connected, h.watched⟩

theorem Emits.mem (h : Emits P s t) {d : Delivery} (hd : d ∈ s.outbox) : d ∈ t.outbox := by
  obtain ⟨extra, heq, _⟩ := h.outbox
  rw [heq]
  exact mem_append_left _ hd

/-- A message was there before, or is one of the sends. -/
theorem Emits.cases (h : Emits P s t) {d : Delivery} (hd : d ∈ t.outbox) :
    d ∈ s.outbox ∨ P d ∧ s.connections d.fd = some d.connection := by
  obtain ⟨extra, heq, hextra⟩ := h.outbox
  rw [heq] at hd
  rcases mem_append.mp hd with hd | hd
  · exact .inl hd
  · exact .inr (hextra d hd)

theorem emits_store (P : Delivery → Prop) (key : Key) (newData : Bytes) (s : Server) :
    Emits P s (store key newData s) :=
  ⟨⟨[], (append_nil _).symm, fun _ hd => absurd hd not_mem_nil⟩, rfl, rfl, rfl⟩

theorem emits_wakeup (hcounted : ∀ g, s.keysAwaited g = occurrences s.waitingSockets g)
    (halive : s.ReleasedAlive (valuesAt s.waitingSockets key)) :
    ∃ t, wakeupWaitingClients key s = .ok t ∧
      Emits (fun d => d.message = .stopWaiting ∧ d.fd ∈ valuesAt s.waitingSockets key) s t := by
  rw [wakeupWaitingClients]
  cases hlookup : s.waitingSockets.lookup key with
  | none => exact ⟨s, rfl, (Sends.refl _ s).emits⟩
  | some fds =>
    have hvalues : valuesAt s.waitingSockets key = fds := by
      rw [valuesAt, hlookup]
      rfl
    rw [hvalues] at halive ⊢
    have hcount : ∀ g, fds.count g ≤ s.keysAwaited g := by
      intro g
      rw [hcounted, ← hvalues]
      exact count_le_occurrences _ _ _
    obtain ⟨extra, hrun, hextra, _⟩ := wakeupSockets_eq fds s hcount halive
    simp only [hrun, Except.map]
    refine ⟨_, rfl, ⟨⟨extra, rfl, fun d hd => ?_⟩, rfl, rfl, rfl⟩⟩
    obtain ⟨hmessage, hin, hconn, _⟩ := hextra d hd
    exact ⟨⟨hmessage, hin⟩, hconn⟩

theorem sendAll_ok (message : Message) (fds : List Fd) (s : Server)
    (halive : ∀ g ∈ fds, s.alive g = true) : ∃ t, sendAll message fds s = .ok t := by
  induction fds generalizing s with
  | nil => exact ⟨s, rfl⟩
  | cons fd fds ih =>
    obtain ⟨c, hopen, hthere⟩ := alive_iff.mp (halive fd mem_cons_self)
    rw [sendAll, send_eq hopen hthere]
    exact ih _ (fun g hg => halive g (mem_cons_of_mem _ hg))

theorem updates_ok (key : Key) (type : Change) (oldData newData : Bytes) (s : Server)
    (halive : ∀ g ∈ s.watchedSockets key, s.alive g = true) :
    ∃ t, sendKeyUpdatesToClients key type oldData newData s = .ok t ∧
      Emits (fun d => d.fd ∈ s.watchedSockets key ∧
        d.message = .update type key oldData newData) s t := by
  obtain ⟨t, hrun⟩ := sendAll_ok (.update type key oldData newData) (s.watchedSockets key) s halive
  have hsends := result_sendAll (.update type key oldData newData) (s.watchedSockets key) s
  rw [hrun, result_ok] at hsends
  exact ⟨t, hrun, hsends.emits⟩

end Emits

def Caused (s : Server) (fd : Fd) (request : Request) (d : Delivery) : Prop :=
  match d.message with
  | .update _ key _ _ => key ∈ request.updates s ∧ d.fd ∈ s.watchedSockets key
  | .stopWaiting =>
    d.fd = fd ∧ (∃ keys, request = .wait keys) ∨ ∃ key, d.fd ∈ valuesAt s.waitingSockets key
  | _ => d.fd = fd

section Deliveries

variable {s t u : Server} {fd : Fd} {key : Key} {request : Request}

theorem emits_bind {x : Except Server Server} {f : Server → Except Server Server}
    {P : Delivery → Prop} (hx : Emits P s (result x))
    (hf : ∀ t, x = .ok t → Emits P t (result (f t))) : Emits P s (result (x.bind f)) := by
  cases x with
  | error t => exact hx
  | ok t => exact hx.trans (hf t rfl)

theorem emits_response (message : Message) (hmessage : message.isResponse = true) (s u : Server)
    (fd : Fd) (request : Request) : Emits (Caused s fd request) u (result (send fd message u)) := by
  refine (result_send fd message u).emits.mono ?_
  rintro d ⟨hfd, rfl⟩
  rw [Caused]
  cases hd : d.message with
  | stopWaiting => rw [hd] at hmessage; cases hmessage
  | update _ _ _ _ => rw [hd] at hmessage; cases hmessage
  | checked _ => exact hfd
  | number _ => exact hfd
  | vector _ => exact hfd
  | callbackRegistered => exact hfd

section

variable (hkey : key ∈ request.updates s) (hwatched : u.watchedSockets = s.watchedSockets)
include hkey hwatched

theorem emits_updates (type : Change) (oldData newData : Bytes) :
    Emits (Caused s fd request) u
      (result (sendKeyUpdatesToClients key type oldData newData u)) := by
  refine (result_sendAll _ _ u).emits.mono ?_
  rintro d ⟨hfd, hmessage⟩
  rw [Caused, hmessage]
  rw [hwatched] at hfd
  exact ⟨hkey, hfd⟩

theorem emits_wakeup_updates (hwaiting : u.waitingSockets = s.waitingSockets)
    (hcounted : ∀ g, u.keysAwaited g = occurrences u.waitingSockets g)
    (halive : u.ReleasedAlive (valuesAt u.waitingSockets key))
    (type : Change) (oldData newData : Bytes) :
    Emits (Caused s fd request) u (result ((wakeupWaitingClients key u).bind
      (sendKeyUpdatesToClients key type oldData newData))) := by
  obtain ⟨t, hrun, hemits⟩ := emits_wakeup hcounted halive
  have hemits' : Emits (Caused s fd request) u t := by
    refine hemits.mono ?_
    rintro d ⟨hmessage, hin⟩
    rw [Caused, hmessage]
    rw [hwaiting] at hin
    exact .inr ⟨key, hin⟩
  rw [hrun]
  exact hemits'.trans (emits_updates hkey (hemits'.watched.trans hwatched) type oldData newData)

end

theorem send_frame {message : Message} (h : send fd message s = .ok t) :
    t.keysAwaited = s.keysAwaited ∧ t.waitingSockets = s.waitingSockets ∧
      t.watchedSockets = s.watchedSockets ∧ t.connections = s.connections ∧
      t.connected = s.connected := by
  have hsends := result_send fd message s
  rw [h, result_ok] at hsends
  obtain ⟨extra, rfl, _⟩ := hsends
  exact ⟨rfl, rfl, rfl, rfl, rfl⟩

theorem storeSum_eq (fd : Fd) (key : Key) (sum : Int) (s : Server) :
    storeSum fd key sum s = (send fd (.number sum) (store key (toDecimal sum) s)).bind (fun t =>
      (wakeupWaitingClients key t).bind (sendKeyUpdatesToClients key (changeOf key s)
        ((s.tcpStore.lookup key).getD []) (toDecimal sum))) := by
  rw [storeSum]
  cases send fd (.number sum) (store key (toDecimal sum) s) <;> rfl

theorem emits_storeSum (hkey : key ∈ request.updates s)
    (hcounted : ∀ g, s.keysAwaited g = occurrences s.waitingSockets g)
    (halive : s.ReleasedAlive (valuesAt s.waitingSockets key)) (sum : Int) :
    Emits (Caused s fd request) s (result (storeSum fd key sum s)) := by
  rw [storeSum_eq]
  refine (emits_store _ key (toDecimal sum) s).trans (emits_bind
    (emits_response (.number sum) rfl s _ fd request) (fun t hrun => ?_))
  obtain ⟨hawaited, hwaiting, hwatched, hconnections, hconnected⟩ := send_frame hrun
  refine emits_wakeup_updates hkey hwatched hwaiting (fun g => ?_) (fun g hg heq => ?_) _ _ _
  · rw [hawaited, hwaiting]
    exact hcounted g
  · rw [hwaiting] at hg heq
    rw [hawaited] at heq
    rw [alive, hconnections, hconnected]
    exact halive g hg heq

variable {pending : Pending}

variable (h : Tracks s pending) (hsafe : WakeUpSafe s (.request fd request))
include h hsafe

/-- A query other than a watch only sends what it causes. -/
theorem emits_query (hwatch : ∀ key, request ≠ .watchKey key) :
    Emits (Caused s fd request) s (result (query fd request s)) := by
  cases request with
  | watchKey key => exact absurd rfl (hwatch key)
  | set key newData =>
    rw [query, setHandler]
    exact (emits_store _ key newData s).trans
      (emits_wakeup_updates (s := s) (u := store key newData s) rfl rfl rfl h.counted hsafe _ _ _)
  | compareSet key currentValue newValue =>
    rw [query]
    have hwrite : key ∈ (Request.compareSet key currentValue newValue).updates s → ∀ type,
        Emits (Caused s fd (.compareSet key currentValue newValue)) s
          (result ((sendKeyUpdatesToClients key type currentValue newValue
            (store key newValue s)).bind (send fd (.vector newValue)))) := fun hkey type =>
      (emits_store _ key newValue s).trans (emits_bind
        (emits_updates (u := store key newValue s) hkey rfl _ _ _)
        (fun t _ => emits_response (.vector newValue) rfl s t fd _))
    cases hlookup : s.tcpStore.lookup key with
    | none =>
      rw [compareSetHandler_none hlookup]
      split
      · rename_i hempty
        refine hwrite ?_ _
        simp [updates, hlookup, hempty]
      · exact emits_response (.vector currentValue) rfl s s fd _
    | some value =>
      rw [compareSetHandler_some hlookup]
      split
      · rename_i hsame
        refine hwrite ?_ _
        simp [updates, hlookup, hsame]
      · exact emits_response (.vector value) rfl s s fd _
  | get key =>
    rw [query]
    cases hlookup : s.tcpStore.lookup key with
    | none =>
      rw [getHandler_none hlookup]
      exact (Sends.refl _ s).emits
    | some data =>
      rw [getHandler_some hlookup]
      exact emits_response (.vector data) rfl s s fd _
  | add key addVal =>
    rw [query]
    cases hlookup : s.tcpStore.lookup key with
    | none =>
      rw [addHandler_none hlookup]
      refine emits_storeSum ?_ h.counted hsafe.2 addVal
      simp [updates, valid, hlookup]
    | some value =>
      cases hold : stoll value with
      | none =>
        rw [addHandler_throws hlookup hold]
        exact (Sends.refl _ s).emits
      | some old =>
        rw [addHandler_some hlookup hold]
        refine emits_storeSum ?_ h.counted hsafe.2 _
        simp [updates, valid, hlookup, hold]
  | check keys => exact emits_response (.checked (s.checkKeys keys)) rfl s s fd _
  | wait keys =>
    rw [query, waitHandler]
    split
    · refine (result_send fd .stopWaiting s).emits.mono ?_
      rintro d ⟨hfd, hmessage⟩
      rw [Caused, hmessage]
      exact .inl ⟨hfd, keys, rfl⟩
    · exact ⟨⟨[], (append_nil _).symm, fun _ hd => absurd hd not_mem_nil⟩, rfl, rfl, rfl⟩
  | getNumKeys => exact emits_response (.number s.tcpStore.keys.length) rfl s s fd _
  | deleteKey key =>
    rw [query]
    cases hlookup : s.tcpStore.lookup key with
    | none =>
      rw [deleteHandler_none hlookup]
      exact emits_response (.number 0) rfl s s fd _
    | some data =>
      rw [deleteHandler_some hlookup]
      have hin : key ∈ s.tcpStore := AList.lookup_isSome.mp (by rw [hlookup]; rfl)
      refine emits_bind (emits_updates (by simp [updates, hin]) rfl _ _ _) (fun t _ => ?_)
      have herase : Emits (Caused s fd (.deleteKey key)) t
          { t with tcpStore := t.tcpStore.erase key } :=
        ⟨⟨[], (append_nil _).symm, fun _ hd => absurd hd not_mem_nil⟩, rfl, rfl, rfl⟩
      exact herase.trans (emits_response (.number 1) rfl s _ fd _)

/-- A query sends only what it causes, and opens or closes no connection. -/
theorem answered_query :
    (result (query fd request s)).connections = s.connections ∧
      ∀ d ∈ (result (query fd request s)).outbox,
        d ∈ s.outbox ∨ Caused s fd request d ∧ s.connections d.fd = some d.connection := by
  by_cases hwatch : ∃ key, request = .watchKey key
  · obtain ⟨key, rfl⟩ := hwatch
    have hresponse := emits_response .callbackRegistered rfl s { s with
      watchedSockets := update s.watchedSockets key (s.watchedSockets key ++ [fd]) }
      fd (.watchKey key)
    exact ⟨hresponse.connections, fun d hd => hresponse.cases hd⟩
  · have hquery := emits_query h hsafe fun key heq => hwatch ⟨key, heq⟩
    exact ⟨hquery.connections, fun d hd => hquery.cases hd⟩

end Deliveries

section Executed

variable {s t u : Server} {fd : Fd} {c : Nat} {key : Key} {request : Request}

theorem alive_congr (hconnections : u.connections = s.connections)
    (hconnected : u.connected = s.connected) (g : Fd) : u.alive g = s.alive g := by
  rw [alive, alive, hconnections, hconnected]

theorem respond_ok (hopen : u.connections fd = some c) (hthere : u.connected c = true)
    (message : Message) :
    ∃ t, send fd message u = .ok t ∧ ⟨fd, c, message⟩ ∈ t.outbox :=
  ⟨_, send_eq hopen hthere message, mem_append_right _ mem_cons_self⟩

theorem updates_respond_ok (hwatchers : ∀ g ∈ u.watchedSockets key, u.alive g = true)
    (hopen : u.connections fd = some c) (hthere : u.connected c = true) (type : Change)
    (oldData newData : Bytes) (message : Message) :
    ∃ t, (sendKeyUpdatesToClients key type oldData newData u).bind (send fd message) = .ok t ∧
      ⟨fd, c, message⟩ ∈ t.outbox := by
  obtain ⟨v, hrun, hemits⟩ := updates_ok key type oldData newData u hwatchers
  rw [hrun]
  refine respond_ok ?_ ?_ message
  · rw [hemits.connections]
    exact hopen
  · rw [hemits.connected]
    exact hthere

theorem wakeup_updates_ok (key : Key)
    (hcounted : ∀ g, u.keysAwaited g = occurrences u.waitingSockets g)
    (halive : u.ReleasedAlive (valuesAt u.waitingSockets key))
    (hwatchers : ∀ g ∈ u.watchedSockets key, u.alive g = true) (type : Change)
    (oldData newData : Bytes) :
    ∃ t, (wakeupWaitingClients key u).bind (sendKeyUpdatesToClients key type oldData newData) =
        .ok t ∧ ∀ d ∈ u.outbox, d ∈ t.outbox := by
  obtain ⟨v, hrun, hemits⟩ := emits_wakeup hcounted halive
  obtain ⟨t, hrun', hemits'⟩ := updates_ok key type oldData newData v (by
    intro g hg
    rw [hemits.watched] at hg
    rw [alive_congr hemits.connections hemits.connected]
    exact hwatchers g hg)
  rw [hrun]
  exact ⟨t, hrun', fun d hd => hemits'.mem (hemits.mem hd)⟩

/-- An addition succeeds if everybody that is sent to is there. -/
theorem storeSum_ok (hcounted : ∀ g, s.keysAwaited g = occurrences s.waitingSockets g)
    (halive : s.ReleasedAlive (valuesAt s.waitingSockets key))
    (hwatchers : ∀ g ∈ s.watchedSockets key, s.alive g = true)
    (hopen : s.connections fd = some c) (hthere : s.connected c = true) (sum : Int) :
    ∃ t, storeSum fd key sum s = .ok t ∧ ⟨fd, c, .number sum⟩ ∈ t.outbox := by
  obtain ⟨u, hsend, hin⟩ := respond_ok (u := store key (toDecimal sum) s) hopen hthere (.number sum)
  obtain ⟨hawaited, hwaiting, hwatched, hconnections, hconnected⟩ := send_frame hsend
  obtain ⟨t, hrun, hkept⟩ := wakeup_updates_ok (u := u) key (by
      intro g
      rw [hawaited, hwaiting]
      exact hcounted g)
    (by
      intro g hg heq
      rw [hwaiting] at hg heq
      rw [hawaited] at heq
      rw [alive_congr hconnections hconnected]
      exact halive g hg heq)
    (by
      intro g hg
      rw [hwatched] at hg
      rw [alive_congr hconnections hconnected]
      exact hwatchers g hg)
    (changeOf key s) ((s.tcpStore.lookup key).getD []) (toDecimal sum)
  refine ⟨t, ?_, hkept _ hin⟩
  rw [storeSum_eq, hsend]
  exact hrun

/-- A request of a client that is there is executed and answered, if nobody whom it
reaches is gone. -/
theorem query_ok {pending : Pending} (h : Tracks s pending)
    (hsafe : WakeUpSafe s (.request fd request))
    (hwatchers : ∀ key ∈ request.updates s, ∀ g ∈ s.watchedSockets key, s.alive g = true)
    (hopen : s.connections fd = some c) (hthere : s.connected c = true)
    (hvalid : request.valid s = true) :
    ∃ t, query fd request s = .ok t ∧
      ∀ message ∈ request.answer s, ⟨fd, c, message⟩ ∈ t.outbox := by
  have hrespond : ∀ message, request.answer s = some message →
      (∃ t, query fd request s = .ok t ∧ ⟨fd, c, message⟩ ∈ t.outbox) →
      ∃ t, query fd request s = .ok t ∧ ∀ message ∈ request.answer s,
        ⟨fd, c, message⟩ ∈ t.outbox := by
    rintro message hanswer ⟨t, hrun, hin⟩
    refine ⟨t, hrun, fun message' hmessage' => ?_⟩
    rw [hanswer, mem_some_iff] at hmessage'
    rw [← hmessage']
    exact hin
  cases request with
  | set key newData =>
    obtain ⟨t, hrun, _⟩ := wakeup_updates_ok (u := store key newData s) key h.counted hsafe
      (hwatchers key rfl) (changeOf key s) ((s.tcpStore.lookup key).getD []) newData
    exact ⟨t, hrun, fun _ hmessage => absurd hmessage (not_mem_none _)⟩
  | compareSet key currentValue newValue =>
    cases hlookup : s.tcpStore.lookup key with
    | none =>
      by_cases hempty : currentValue = []
      · refine hrespond (.vector newValue) (by simp [answer, hlookup, hempty]) ?_
        rw [query, compareSetHandler_none hlookup, if_pos hempty]
        exact updates_respond_ok (u := store key newValue s)
          (hwatchers key (by simp [updates, hlookup, hempty])) hopen hthere _ _ _ _
      · refine hrespond (.vector currentValue) (by simp [answer, hlookup, hempty]) ?_
        rw [query, compareSetHandler_none hlookup, if_neg hempty]
        exact respond_ok hopen hthere _
    | some value =>
      by_cases hsame : value = currentValue
      · refine hrespond (.vector newValue) (by simp [answer, hlookup, hsame]) ?_
        rw [query, compareSetHandler_some hlookup, if_pos hsame]
        exact updates_respond_ok (u := store key newValue s)
          (hwatchers key (by simp [updates, hlookup, hsame])) hopen hthere _ _ _ _
      · refine hrespond (.vector value) (by simp [answer, hlookup, hsame]) ?_
        rw [query, compareSetHandler_some hlookup, if_neg hsame]
        exact respond_ok hopen hthere _
  | get key =>
    obtain ⟨data, hlookup⟩ := isSome_iff_exists.mp
      (AList.lookup_isSome.mpr (of_decide_eq_true hvalid))
    refine hrespond (.vector data) (by simp [answer, hlookup]) ?_
    rw [query, getHandler_some hlookup]
    exact respond_ok hopen hthere _
  | add key addVal =>
    have hkey : key ∈ (Request.add key addVal).updates s := by
      rw [updates, if_pos hvalid]
      rfl
    cases hlookup : s.tcpStore.lookup key with
    | none =>
      refine hrespond (.number addVal) (by simp [answer, hlookup]) ?_
      rw [query, addHandler_none hlookup]
      exact storeSum_ok h.counted hsafe.2 (hwatchers key hkey) hopen hthere _
    | some value =>
      rw [valid, hlookup, all_some] at hvalid
      obtain ⟨old, hold⟩ := isSome_iff_exists.mp hvalid
      refine hrespond (.number (addInt64 addVal old)) (by simp [answer, hlookup, hold]) ?_
      rw [query, addHandler_some hlookup hold]
      exact storeSum_ok h.counted hsafe.2 (hwatchers key hkey) hopen hthere _
  | check keys => exact hrespond _ rfl (respond_ok hopen hthere _)
  | wait keys =>
    cases hcheck : s.checkKeys keys with
    | true =>
      refine hrespond .stopWaiting (if_pos hcheck) ?_
      rw [query, waitHandler, if_pos hcheck]
      exact respond_ok hopen hthere _
    | false =>
      refine ⟨_, if_neg (by simp [hcheck]), fun message hmessage => ?_⟩
      rw [answer, if_neg (by simp [hcheck])] at hmessage
      cases hmessage
  | getNumKeys => exact hrespond _ rfl (respond_ok hopen hthere _)
  | watchKey key => exact hrespond _ rfl (respond_ok (u := { s with
      watchedSockets := update s.watchedSockets key (s.watchedSockets key ++ [fd]) })
      hopen hthere _)
  | deleteKey key =>
    cases hlookup : s.tcpStore.lookup key with
    | none =>
      have hout : key ∉ s.tcpStore := AList.lookup_eq_none.mp hlookup
      refine hrespond (.number 0) (by simp [answer, hout]) ?_
      rw [query, deleteHandler_none hlookup]
      exact respond_ok hopen hthere _
    | some data =>
      have hin : key ∈ s.tcpStore := AList.lookup_isSome.mp (by rw [hlookup]; rfl)
      refine hrespond (.number 1) (by simp [answer, hin]) ?_
      obtain ⟨u, hrun, hemits⟩ := updates_ok key .keyDeleted data [] s
        (hwatchers key (by simp [updates, hin]))
      rw [query, deleteHandler_some hlookup, hrun]
      refine respond_ok (u := { u with tcpStore := u.tcpStore.erase key }) ?_ ?_ _
      · exact hemits.connections ▸ hopen
      · exact hemits.connected ▸ hthere

end Executed

end Server

section Steps

variable {w : Observed} {e : Event}

variable {fd : Fd} {request : Request} {s : Server}

theorem watcherThere_iff {watches : Watches} {key : Key} :
    watcherThere s watches key fd = true ↔
      ∃ c, s.connections fd = some c ∧ s.connected c = true ∧ (c, key) ∈ watches := by
  rw [watcherThere]
  cases s.connections fd with
  | none => simp
  | some c => simp

theorem outbox_quiet (hempty : s.outbox = [])
    (hrequest : ∀ fd request, e ≠ .request fd request) : (s.handle e).outbox = [] := by
  cases e with
  | accept fd =>
    rw [Server.handle]
    cases s.connections fd with
    | none => exact hempty
    | some c => exact hempty
  | request fd request => exact absurd rfl (hrequest fd request)
  | disconnect c => exact hempty
  | hangUp fd =>
    rw [Server.handle]
    split
    · exact hempty
    · exact hempty

theorem outbox_request (hopen : (s.connections fd).isSome) :
    (s.handle (.request fd request)).outbox =
    (Server.result (Server.query fd request s)).outbox := by
  rw [Server.handle, if_pos hopen]
  rcases Server.serve_cases fd request s with heq | heq
  · rw [heq]
  · rw [heq]
    rfl

variable (h : Tracks w.server w.pending)
include h

theorem askedFor_of_caused {d : Delivery} (hsafe : ClientsSafe w (.request fd request))
    (hcaused : Server.Caused w.server fd request d)
    (hconn : w.server.connections d.fd = some d.connection) :
    AskedFor w (.request fd request) d := by
  rw [Server.Caused] at hcaused
  rw [AskedFor]
  cases hmessage : d.message with
  | update type key oldData newData =>
    rw [hmessage] at hcaused
    obtain ⟨c, hc, _, hin⟩ := watcherThere_iff.mp (hsafe.2.1 key hcaused.1 d.fd hcaused.2)
    rw [hconn] at hc
    cases hc
    exact hin
  | stopWaiting =>
    rw [hmessage] at hcaused
    refine ⟨hconn, ?_⟩
    rcases hcaused with ⟨hfd, keys, heq⟩ | ⟨key, hin⟩
    · exact .inl ⟨keys, by rw [hfd, heq]⟩
    · obtain ⟨keys, hw, _⟩ := (h.waits d.fd key).mp hin
      exact .inr ⟨keys, hw⟩
  | checked ready =>
    rw [hmessage] at hcaused
    exact ⟨hconn, request, by rw [show d.fd = fd from hcaused]⟩
  | number value =>
    rw [hmessage] at hcaused
    exact ⟨hconn, request, by rw [show d.fd = fd from hcaused]⟩
  | vector data =>
    rw [hmessage] at hcaused
    exact ⟨hconn, request, by rw [show d.fd = fd from hcaused]⟩
  | callbackRegistered =>
    rw [hmessage] at hcaused
    exact ⟨hconn, request, by rw [show d.fd = fd from hcaused]⟩

theorem step_request {c : Nat}
    (hsafe : ClientsSafe w (.request fd request)) (hopen : w.server.connections fd = some c)
    (hthere : w.server.connected c = true) :
    Server.query fd request { w.server with outbox := [] } =
        .ok (w.server.step (.request fd request)) ∧
      ∀ message ∈ request.answer w.server,
        ⟨fd, c, message⟩ ∈ (w.server.step (.request fd request)).outbox := by
  have hclear : Tracks { w.server with outbox := [] } w.pending :=
    ⟨h.absent, h.counted, h.waits, h.once, h.isOpen, h.nonempty⟩
  have halive : w.server.alive fd = true := Server.alive_iff.mpr ⟨c, hopen, hthere⟩
  have hwatchers : ∀ key ∈ request.updates w.server, ∀ g ∈ w.server.watchedSockets key,
      w.server.alive g = true := by
    intro key hkey g hg
    obtain ⟨c', hc', hthere', _⟩ := watcherThere_iff.mp (hsafe.2.1 key hkey g hg)
    exact Server.alive_iff.mpr ⟨c', hc', hthere'⟩
  obtain ⟨t, hrun, hanswer⟩ := Server.query_ok hclear hsafe.1 hwatchers hopen hthere
    (hsafe.2.2 halive)
  have hstep : w.server.step (.request fd request) = t := by
    rw [Server.step, Server.handle, if_pos (by rw [hopen]; rfl), Server.serve, hrun]
  rw [hstep]
  exact ⟨hrun, hanswer⟩

theorem step_keeps {c : Nat} (hsafe : ClientsSafe w e)
    (hopen : w.server.connections fd = some c) (hthere : w.server.connected c = true) :
    (w.server.step e).connections fd = some c := by
  have hclear : Tracks { w.server with outbox := [] } w.pending :=
    ⟨h.absent, h.counted, h.waits, h.once, h.isOpen, h.nonempty⟩
  have halive : w.server.alive fd = true := Server.alive_iff.mpr ⟨c, hopen, hthere⟩
  cases e with
  | accept fd' =>
    rw [Server.step, Server.handle]
    cases hfree : w.server.connections fd' with
    | some c' => exact hopen
    | none =>
      have hne : fd ≠ fd' := by
        rintro rfl
        rw [hopen] at hfree
        cases hfree
      exact (update_of_ne hne _ _).trans hopen
  | disconnect c' => exact hopen
  | request fd' request =>
    have hquery := (Server.answered_query hclear hsafe.1).1
    by_cases hfd : fd = fd'
    · subst hfd
      obtain ⟨hrun, _⟩ := step_request h hsafe hopen hthere
      rw [hrun, Server.result_ok] at hquery
      rw [hquery]
      exact hopen
    · rw [Server.step, Server.handle]
      split
      · rcases Server.serve_cases fd' request { w.server with outbox := [] } with heq | heq
        · rw [heq, hquery]
          exact hopen
        · rw [heq]
          refine (update_of_ne hfd _ _).trans ?_
          rw [hquery]
          exact hopen
      · exact hopen
  | hangUp fd' =>
    rw [Server.step, Server.handle]
    split
    · rename_i hdead
      have hne : fd ≠ fd' := by
        rintro rfl
        exact hdead.2 halive
      exact (update_of_ne hne _ _).trans hopen
    · exact hopen

theorem local_step (hsafe : ClientsSafe w e) : Local w e := by
  have hclear : Tracks { w.server with outbox := [] } w.pending :=
    ⟨h.absent, h.counted, h.waits, h.once, h.isOpen, h.nonempty⟩
  refine ⟨?_, fun fd c hopen hthere => step_keeps h hsafe hopen hthere,
    (tracks_step h hsafe.1).2, fun d hd => ?_⟩
  · rintro fd request c rfl hopen hthere
    exact step_request h hsafe hopen hthere
  · by_cases hrequest : ∃ fd request, e = .request fd request
    · obtain ⟨fd, request, rfl⟩ := hrequest
      rw [Server.step] at hd
      by_cases hopen : (w.server.connections fd).isSome
      · rw [outbox_request (s := { w.server with outbox := [] }) hopen] at hd
        obtain ⟨hcaused, hconn⟩ := ((Server.answered_query hclear hsafe.1).2 d hd).resolve_left
          not_mem_nil
        exact askedFor_of_caused h hsafe hcaused hconn
      · rw [Server.handle, if_neg hopen] at hd
        exact absurd hd not_mem_nil
    · rw [Server.step, outbox_quiet rfl (fun fd request heq => hrequest ⟨fd, request, heq⟩)] at hd
      exact absurd hd not_mem_nil

end Steps

section Runs

/-- In every run whose events meet the condition, every event is local, whoever goes away
at any time. -/
theorem failures_stay_local (events : List Event)
    (hsafe : clients.Admissible ClientsSafe clients.init events) :
    clients.Admissible Local clients.init events :=
  clients.admissible_of_invariant ClientsSafe Local (fun w => Tracks w.server w.pending)
    (fun _ _ h hsafe => ⟨(tracks_step h hsafe.1).1, local_step h hsafe⟩) events clients.init
    tracks_initial hsafe

instance decidableClientsSafe (w : Observed) : (e : Event) → Decidable (ClientsSafe w e)
  | .request fd request =>
    inferInstanceAs (Decidable (WakeUpSafe w.server (.request fd request) ∧
      (∀ key ∈ request.updates w.server, ∀ g ∈ w.server.watchedSockets key,
        watcherThere w.server w.watches key g = true) ∧
      (w.server.alive fd = true → request.valid w.server = true)))
  | .accept fd => inferInstanceAs (Decidable (WakeUpSafe w.server (.accept fd) ∧ True))
  | .disconnect c => inferInstanceAs (Decidable (WakeUpSafe w.server (.disconnect c) ∧ True))
  | .hangUp fd => inferInstanceAs (Decidable (WakeUpSafe w.server (.hangUp fd) ∧ True))

/-- A client that waits goes away before the key is created, and its socket is given to
another client. -/
def waiterGone : List Event :=
  [.accept 4, .accept 5, .request 4 (.wait [[97]]), .request 5 (.watchKey [97]), .disconnect 0,
    .hangUp 4, .accept 4, .request 4 (.set [97] [1])]

/-- A client that is gone while it waits hurts nobody. -/
theorem waiterGone_local : clients.Admissible Local clients.init waiterGone ∧
      (clients.exec clients.init waiterGone).server.outbox =
        [⟨5, 1, .update .keyCreated [97] [] [1]⟩] :=
  ⟨failures_stay_local waiterGone (by decide), by decide⟩

/-- A client that watches a key goes away. -/
def watcherLeaves : List Event :=
  [.accept 4, .request 4 (.watchKey [97]), .disconnect 0, .hangUp 4]

/-- The next client that changes the key loses its connection; and if the socket is given
to another client, that client gets the update. -/
theorem watcher_gone : ¬ clients.Admissible Local clients.init
        (watcherLeaves ++ [.accept 5, .request 5 (.set [97] [1])]) ∧
      ¬ clients.Admissible Local clients.init
        (watcherLeaves ++ [.accept 4, .accept 5, .request 5 (.set [97] [1])]) := by
  refine ⟨fun h => ?_, fun h => ?_⟩
  · have hlast := ((clients.admissible_append Local clients.init
      (watcherLeaves ++ [.accept 5]) [.request 5 (.set [97] [1])]).mp h).2.1
    exact absurd (hlast.kept 5 1 rfl rfl) (by decide)
  · have hlast := ((clients.admissible_append Local clients.init
      (watcherLeaves ++ [.accept 4, .accept 5]) [.request 5 (.set [97] [1])]).mp h).2.1
    have hasked := hlast.asked ⟨4, 1, .update .keyCreated [97] [] [1]⟩ (by decide)
    exact absurd (show ((1, [97]) : Nat × Key) ∈ _ from hasked) (by decide)

end Runs

end PyTorchCore.TcpStore
