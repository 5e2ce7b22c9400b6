import PyTorchCore.TcpStore.HandlerSpecs

/-!
# Wake-ups

What a wait is owed, seen from outside: a `WAIT` whose keys are not all there is pending until the
last of them that has not come into existence since is created, and is answered by the step that
creates it.
-/

namespace PyTorchCore.TcpStore

open Lib
open Function List
open Lib.Multimap

/-- The waits that are not answered, with the keys that have not come into existence
since the request. -/
abbrev Pending := List (Fd × List Key)

section Observer

def created (s s' : Server) (key : Key) : Bool :=
  key ∉ s.tcpStore ∧ key ∈ s'.tcpStore

/-- The pending waits, without the keys that a step creates. -/
def progressed (s s' : Server) (pending : Pending) : Pending :=
  pending.map (fun w => (w.1, w.2.filter (fun key => ¬ created s s' key)))

/-- The waits that are still pending after a step. -/
def survivors (s s' : Server) (pending : Pending) : Pending :=
  (progressed s s' pending).filter (fun w => w.2 ≠ [])

/-- The sockets whose waits end with a step. -/
def finished (s s' : Server) (pending : Pending) : List Fd :=
  ((progressed s s' pending).filter (fun w => w.2 = [])).map Prod.fst

def newWait (s : Server) : Event → Pending
  | .request fd (.wait keys) =>
    if (s.connections fd).isSome ∧ ¬ s.checkKeys keys then [(fd, s.missing keys)] else []
  | _ => []

/-- The wait of an event that is answered at once. -/
def immediate (s : Server) : Event → List Fd
  | .request fd (.wait keys) => if s.checkKeys keys then [fd] else []
  | _ => []

/-- The pending waits after a step; those of a connection that is closed are dropped. -/
def observe (s s' : Server) (e : Event) (pending : Pending) : Pending :=
  (survivors s s' pending ++ newWait s e).filter (fun w => s'.connections w.1 = s.connections w.1)

/-- The sockets that are owed an answer by a step. -/
def owed (s s' : Server) (e : Event) (pending : Pending) : List Fd :=
  (finished s s' pending ++ immediate s e).filter s.alive

/-- The server together with the pending waits.  The outcome of an event is who got
`STOP_WAITING` and who was owed it. -/
def wakeUps : Machine (Server × Pending) Event (List Fd × List Fd) where
  init := (Server.initial, [])
  step w e := ((w.1.step e, observe w.1 (w.1.step e) e w.2),
    (Server.stops (w.1.step e).outbox, owed w.1 (w.1.step e) e w.2))

end Observer

/-- The condition on an event, in the state before it: a key that somebody waits for is
created by `SET`, or by `ADD` from a client that is there, and the clients that it wakes
are there; and a socket that waits does not wait for more. -/
def WakeUpSafe (s : Server) : Event → Prop
  | .request _ (.set key _) => s.ReleasedAlive (valuesAt s.waitingSockets key)
  | .request fd (.add key _) =>
    (key ∈ s.waitingSockets → s.alive fd = true) ∧
      s.ReleasedAlive (valuesAt s.waitingSockets key)
  | .request _ (.compareSet key currentValue _) =>
    key ∈ s.tcpStore ∨ currentValue ≠ [] ∨ key ∉ s.waitingSockets
  | .request fd (.wait keys) =>
    s.checkKeys keys = true ∨
      occurrences s.waitingSockets fd = 0 ∧ (s.missing keys).length < 2 ^ 31
  | _ => True

instance decidableReleasedAlive (s : Server) (fds : List Fd) : Decidable (s.ReleasedAlive fds) :=
  inferInstanceAs (Decidable (∀ g ∈ fds, fds.count g = s.keysAwaited g → s.alive g = true))

instance decidableWakeUpSafe (s : Server) : (e : Event) → Decidable (WakeUpSafe s e)
  | .request _ (.set key _) =>
    inferInstanceAs (Decidable (s.ReleasedAlive (valuesAt s.waitingSockets key)))
  | .request fd (.add key _) =>
    inferInstanceAs (Decidable ((key ∈ s.waitingSockets → s.alive fd = true) ∧
      s.ReleasedAlive (valuesAt s.waitingSockets key)))
  | .request _ (.compareSet key currentValue _) =>
    inferInstanceAs (Decidable (key ∈ s.tcpStore ∨ currentValue ≠ [] ∨ key ∉ s.waitingSockets))
  | .request fd (.wait keys) =>
    inferInstanceAs (Decidable (s.checkKeys keys = true ∨
      occurrences s.waitingSockets fd = 0 ∧ (s.missing keys).length < 2 ^ 31))
  | .request _ (.get _) => .isTrue trivial
  | .request _ (.check _) => .isTrue trivial
  | .request _ .getNumKeys => .isTrue trivial
  | .request _ (.watchKey _) => .isTrue trivial
  | .request _ (.deleteKey _) => .isTrue trivial
  | .accept _ => .isTrue trivial
  | .disconnect _ => .isTrue trivial
  | .hangUp _ => .isTrue trivial

/-- What the maps of the server say about the pending waits. -/
structure Tracks (s : Server) (pending : Pending) : Prop where
  absent : ∀ key ∈ s.tcpStore, key ∉ s.waitingSockets
  counted : ∀ fd, s.keysAwaited fd = occurrences s.waitingSockets fd
  waits : ∀ fd key, fd ∈ valuesAt s.waitingSockets key ↔
    ∃ keys, (fd, keys) ∈ pending ∧ key ∈ keys
  once : (pending.map Prod.fst).Nodup
  isOpen : ∀ w ∈ pending, (s.connections w.1).isSome
  nonempty : ∀ w ∈ pending, w.2 ≠ []

/-- The requests that may send `STOP_WAITING`. -/
def Request.wakes : Request → Bool
  | .set _ _ => true
  | .add _ _ => true
  | .wait _ => true
  | _ => false

namespace Server

/-- A state that differs at most in the store, in the watched sockets and in messages
other than `STOP_WAITING`. -/
structure Quiet (s t : Server) : Prop where
  waiting : t.waitingSockets = s.waitingSockets
  awaited : t.keysAwaited = s.keysAwaited
  connections : t.connections = s.connections
  connected : t.connected = s.connected
  stops : stops t.outbox = stops s.outbox

/-- A state after `wakeupWaitingClients`. -/
structure Woken (s : Server) (key : Key) (t : Server) : Prop where
  waiting : t.waitingSockets = s.waitingSockets.erase key
  awaited : ∀ g, t.keysAwaited g = s.keysAwaited g - (valuesAt s.waitingSockets key).count g
  connections : t.connections = s.connections
  connected : t.connected = s.connected
  stops : ∀ g, (stops t.outbox).count g = (stops s.outbox).count g +
    if g ∈ valuesAt s.waitingSockets key ∧
      (valuesAt s.waitingSockets key).count g = s.keysAwaited g then 1 else 0

section Effects

variable {s t u : Server} {key : Key}

theorem Quiet.trans (h : Quiet s t) (h' : Quiet t u) : Quiet s u :=
  ⟨h'.waiting.trans h.waiting, h'.awaited.trans h.awaited, h'.connections.trans h.connections,
    h'.connected.trans h.connected, h'.stops.trans h.stops⟩

/-- Sends of other messages wake nobody. -/
theorem Sends.quiet (h : Sends (fun d => d.message ≠ .stopWaiting) s t) : Quiet s t := by
  have hstops := h.stops
  obtain ⟨extra, rfl, _⟩ := h
  exact ⟨rfl, rfl, rfl, rfl, hstops⟩

variable {P : Delivery → Prop}

theorem Sends.tcpStore (h : Sends P s t) : t.tcpStore = s.tcpStore := by
  obtain ⟨extra, rfl, _⟩ := h
  rfl

theorem quiet_store (key : Key) (newData : Bytes) (s : Server) : Quiet s (store key newData s) :=
  ⟨rfl, rfl, rfl, rfl, rfl⟩

theorem sends_response (fd : Fd) (message : Message) (h : message ≠ .stopWaiting) (s : Server) :
    Sends (fun d => d.message ≠ .stopWaiting) s (result (send fd message s)) :=
  (result_send fd message s).mono (fun _ hd => hd.2 ▸ h)

theorem sends_updates (key : Key) (type : Change) (oldData newData : Bytes) (s : Server) :
    Sends (fun d => d.message ≠ .stopWaiting) s
      (result (sendKeyUpdatesToClients key type oldData newData s)) :=
  (result_sendAll _ _ s).mono (fun _ hd => hd.2 ▸ Message.noConfusion)

theorem sends_bind {x : Except Server Server} {f : Server → Except Server Server}
    (hx : Sends P s (result x)) (hf : ∀ t, Sends P t (result (f t))) :
    Sends P s (result (x.bind f)) := by
  cases x with
  | error t => exact hx
  | ok t => exact hx.trans (hf t)

/-- A change of a key that nobody waits for. -/
theorem Quiet.woken (h : Quiet s t) (hkey : key ∉ s.waitingSockets) : Woken s key t := by
  have hvalues : valuesAt s.waitingSockets key = [] := by
    rw [valuesAt, AList.lookup_eq_none.mpr hkey]
    rfl
  have herase : s.waitingSockets.erase key = s.waitingSockets :=
    AList.ext (kerase_of_notMem_keys hkey)
  refine ⟨by rw [herase, h.waiting], fun g => ?_, h.connections, h.connected, fun g => ?_⟩
  · rw [hvalues, count_nil, Nat.sub_zero, h.awaited]
  · rw [hvalues, if_neg (fun hg => absurd hg.1 not_mem_nil), Nat.add_zero, h.stops]

theorem Woken.trans_quiet (h : Woken s key t) (h' : Quiet t u) : Woken s key u := by
  refine ⟨h'.waiting.trans h.waiting, fun g => ?_, h'.connections.trans h.connections,
    h'.connected.trans h.connected, fun g => ?_⟩
  · rw [h'.awaited]
    exact h.awaited g
  · rw [h'.stops]
    exact h.stops g

theorem Quiet.trans_woken (h : Quiet s t) (h' : Woken t key u) : Woken s key u := by
  refine ⟨by rw [h'.waiting, h.waiting], fun g => ?_, h'.connections.trans h.connections,
    h'.connected.trans h.connected, fun g => ?_⟩
  · rw [h'.awaited, h.awaited, h.waiting]
  · rw [h'.stops, h.stops, h.awaited, h.waiting]

theorem wakeupWaitingClients_woken (key : Key)
    (hcounted : ∀ g, s.keysAwaited g = occurrences s.waitingSockets g)
    (halive : s.ReleasedAlive (valuesAt s.waitingSockets key)) :
    ∃ t, wakeupWaitingClients key s = .ok t ∧ Woken s key t ∧ t.tcpStore = s.tcpStore := by
  rw [wakeupWaitingClients]
  cases hlookup : s.waitingSockets.lookup key with
  | none =>
    exact ⟨s, rfl, Quiet.woken ⟨rfl, rfl, rfl, rfl, rfl⟩ (AList.lookup_eq_none.mp hlookup), rfl⟩
  | some fds =>
    have hvalues : valuesAt s.waitingSockets key = fds := by
      rw [valuesAt, hlookup]
      rfl
    rw [hvalues] at halive
    have hcount : ∀ g, fds.count g ≤ s.keysAwaited g := by
      intro g
      rw [hcounted, ← hvalues]
      exact count_le_occurrences _ _ _
    obtain ⟨extra, hrun, _, hstops⟩ := wakeupSockets_eq fds s hcount halive
    simp only [hrun, Except.map]
    refine ⟨_, rfl, ⟨rfl, fun g => ?_, rfl, rfl, fun g => ?_⟩, rfl⟩
    · rw [hvalues]
    · rw [stops_append, count_append, hstops g, hvalues]

theorem mem_insert_iff {d : Bytes} (h : t.tcpStore = s.tcpStore.insert key d) (k : Key) :
    k ∈ t.tcpStore ↔ k = key ∨ k ∈ s.tcpStore := by
  rw [h, AList.mem_insert]

section

variable (hcounted : ∀ g, s.keysAwaited g = occurrences s.waitingSockets g)
  (halive : s.ReleasedAlive (valuesAt s.waitingSockets key))
include hcounted halive

theorem result_setHandler (newData : Bytes) :
    Woken s key (result (setHandler key newData s)) ∧
      ∀ k, k ∈ (result (setHandler key newData s)).tcpStore ↔ k = key ∨ k ∈ s.tcpStore := by
  obtain ⟨t, hrun, hwoken, hstore⟩ := wakeupWaitingClients_woken
    (s := store key newData s) key hcounted halive
  rw [setHandler, hrun]
  have hupdates := sends_updates key (changeOf key s) ((s.tcpStore.lookup key).getD []) newData t
  refine ⟨(quiet_store key newData s).trans_woken (hwoken.trans_quiet hupdates.quiet), ?_⟩
  exact mem_insert_iff (hupdates.tcpStore.trans hstore)

theorem result_storeSum (fd : Fd) (sum : Int)
    (hrequester : key ∈ s.waitingSockets → s.alive fd = true) :
    Woken s key (result (storeSum fd key sum s)) ∧
      ∀ k, k ∈ (result (storeSum fd key sum s)).tcpStore ↔ k = key ∨ k ∈ s.tcpStore := by
  have hstored := quiet_store key (toDecimal sum) s
  have hsends := sends_response fd (.number sum) Message.noConfusion (store key (toDecimal sum) s)
  rw [storeSum]
  cases hsend : send fd (.number sum) (store key (toDecimal sum) s) with
  | error t =>
    rw [hsend, result_error] at hsends
    -- The client is gone, so nobody waits for the key.
    have hkey : key ∉ s.waitingSockets := by
      intro hin
      obtain ⟨c, hopen, hthere⟩ := alive_iff.mp (hrequester hin)
      rw [send_eq (s := store key (toDecimal sum) s) hopen hthere] at hsend
      cases hsend
    exact ⟨(hstored.trans hsends.quiet).woken hkey, mem_insert_iff hsends.tcpStore⟩
  | ok t =>
    rw [hsend, result_ok] at hsends
    have hquiet := hstored.trans hsends.quiet
    obtain ⟨u, hwake, hwoken, hstore⟩ := wakeupWaitingClients_woken (s := t) key (by
        intro g
        rw [hquiet.awaited, hquiet.waiting]
        exact hcounted g)
      (by
        intro g hg heq
        rw [hquiet.waiting] at hg heq
        rw [hquiet.awaited] at heq
        rw [alive, hquiet.connections, hquiet.connected]
        exact halive g hg heq)
    have hupdates := sends_updates key (changeOf key s) ((s.tcpStore.lookup key).getD [])
      (toDecimal sum) u
    simp only [Except.bind, hwake]
    refine ⟨hquiet.trans_woken (hwoken.trans_quiet hupdates.quiet), ?_⟩
    exact mem_insert_iff (hupdates.tcpStore.trans (hstore.trans hsends.tcpStore))

theorem result_addHandler (fd : Fd) (addVal : Int)
    (habsent : key ∈ s.tcpStore → key ∉ s.waitingSockets)
    (hrequester : key ∈ s.waitingSockets → s.alive fd = true) :
    Woken s key (result (addHandler fd key addVal s)) ∧
      ∀ k, k ∈ (result (addHandler fd key addVal s)).tcpStore ↔ k = key ∨ k ∈ s.tcpStore := by
  cases hlookup : s.tcpStore.lookup key with
  | none =>
    rw [addHandler_none hlookup]
    exact result_storeSum hcounted halive fd addVal hrequester
  | some value =>
    have hin : key ∈ s.tcpStore := AList.lookup_isSome.mp (by rw [hlookup]; rfl)
    cases hold : stoll value with
    | none =>
      rw [addHandler_throws hlookup hold, result_error]
      refine ⟨Quiet.woken ⟨rfl, rfl, rfl, rfl, rfl⟩ (habsent hin), fun k => ?_⟩
      exact ⟨.inr, fun hk => hk.elim (fun heq => heq ▸ hin) id⟩
    | some old =>
      rw [addHandler_some hlookup hold]
      exact result_storeSum hcounted halive fd (addInt64 addVal old) hrequester

end

theorem result_query_quiet {fd : Fd} {request : Request} (hwakes : request.wakes = false)
    (hsafe : WakeUpSafe s (.request fd request)) :
    Quiet s (result (query fd request s)) ∧
      ∀ k ∈ (result (query fd request s)).tcpStore, k ∉ s.tcpStore → k ∉ s.waitingSockets := by
  cases request with
  | set key newData => cases hwakes
  | add key addVal => cases hwakes
  | wait keys => cases hwakes
  | compareSet key currentValue newValue =>
    rw [query]
    have hwrite : ∀ type, Sends (fun d => d.message ≠ .stopWaiting) (store key newValue s)
        (result ((sendKeyUpdatesToClients key type currentValue newValue
          (store key newValue s)).bind (send fd (.vector newValue)))) := fun type =>
      sends_bind (sends_updates key type currentValue newValue _)
        (sends_response fd (.vector newValue) Message.noConfusion)
    cases hlookup : s.tcpStore.lookup key with
    | none =>
      rw [compareSetHandler_none hlookup]
      by_cases hempty : currentValue = []
      · rw [if_pos hempty]
        refine ⟨(quiet_store key newValue s).trans (hwrite _).quiet, fun k hk hnew => ?_⟩
        rw [mem_insert_iff (hwrite _).tcpStore k] at hk
        obtain rfl := hk.resolve_right hnew
        rcases hsafe with hin | hne | hnot
        · exact absurd hin hnew
        · exact absurd hempty hne
        · exact hnot
      · rw [if_neg hempty]
        have hsends := sends_response fd (.vector currentValue) Message.noConfusion s
        exact ⟨hsends.quiet, fun k hk hnew => absurd (hsends.tcpStore ▸ hk) hnew⟩
    | some value =>
      have hin : key ∈ s.tcpStore := AList.lookup_isSome.mp (by rw [hlookup]; rfl)
      rw [compareSetHandler_some hlookup]
      by_cases hsame : value = currentValue
      · rw [if_pos hsame]
        refine ⟨(quiet_store key newValue s).trans (hwrite _).quiet, fun k hk hnew => ?_⟩
        rw [mem_insert_iff (hwrite _).tcpStore k] at hk
        exact absurd (hk.resolve_right hnew ▸ hin) hnew
      · rw [if_neg hsame]
        have hsends := sends_response fd (.vector value) Message.noConfusion s
        exact ⟨hsends.quiet, fun k hk hnew => absurd (hsends.tcpStore ▸ hk) hnew⟩
  | get key =>
    rw [query]
    cases hlookup : s.tcpStore.lookup key with
    | none =>
      rw [getHandler_none hlookup, result_error]
      exact ⟨⟨rfl, rfl, rfl, rfl, rfl⟩, fun k hk hnew => absurd hk hnew⟩
    | some data =>
      rw [getHandler_some hlookup]
      have hsends := sends_response fd (.vector data) Message.noConfusion s
      exact ⟨hsends.quiet, fun k hk hnew => absurd (hsends.tcpStore ▸ hk) hnew⟩
  | check keys =>
    have hsends := sends_response fd (.checked (s.checkKeys keys)) Message.noConfusion s
    exact ⟨hsends.quiet, fun k hk hnew => absurd (hsends.tcpStore ▸ hk) hnew⟩
  | getNumKeys =>
    have hsends := sends_response fd (.number s.tcpStore.keys.length) Message.noConfusion s
    exact ⟨hsends.quiet, fun k hk hnew => absurd (hsends.tcpStore ▸ hk) hnew⟩
  | watchKey key =>
    have hsends := sends_response fd .callbackRegistered Message.noConfusion { s with
        watchedSockets := update s.watchedSockets key (s.watchedSockets key ++ [fd]) }
    have hquiet := hsends.quiet
    exact ⟨⟨hquiet.waiting, hquiet.awaited, hquiet.connections, hquiet.connected, hquiet.stops⟩,
      fun k hk hnew => absurd (hsends.tcpStore ▸ hk) hnew⟩
  | deleteKey key =>
    rw [query]
    cases hlookup : s.tcpStore.lookup key with
    | none =>
      rw [deleteHandler_none hlookup]
      have hsends := sends_response fd (.number 0) Message.noConfusion s
      exact ⟨hsends.quiet, fun k hk hnew => absurd (hsends.tcpStore ▸ hk) hnew⟩
    | some oldData =>
      rw [deleteHandler_some hlookup]
      have hupdates := sends_updates key .keyDeleted oldData [] s
      cases hrun : sendKeyUpdatesToClients key .keyDeleted oldData [] s with
      | error t =>
        rw [hrun] at hupdates
        exact ⟨hupdates.quiet, fun k hk hnew => absurd (hupdates.tcpStore ▸ hk) hnew⟩
      | ok t =>
        rw [hrun] at hupdates
        have hsends := sends_response fd (.number 1) Message.noConfusion
          { t with tcpStore := t.tcpStore.erase key }
        have herased : Quiet t { t with tcpStore := t.tcpStore.erase key } :=
          ⟨rfl, rfl, rfl, rfl, rfl⟩
        refine ⟨hupdates.quiet.trans (herased.trans hsends.quiet), fun k hk hnew => ?_⟩
        have hk' : k ∈ t.tcpStore.erase key := by
          rw [← show _ = t.tcpStore.erase key from hsends.tcpStore]
          exact hk
        exact absurd (hupdates.tcpStore ▸ (AList.mem_erase.mp hk').2) hnew

end Effects

end Server

section Tracking

variable {s t : Server} {pending : Pending} {key : Key}

variable {fd : Fd} {keys : List Key}

/-- A pending wait is entered under each of its keys. -/
theorem Tracks.awaited (h : Tracks s pending)
    (hw : (fd, keys) ∈ pending) (hkey : key ∈ keys) : key ∈ s.waitingSockets := by
  have hin : fd ∈ valuesAt s.waitingSockets key := (h.waits fd key).mpr ⟨keys, hw, hkey⟩
  by_contra hnot
  rw [valuesAt, AList.lookup_eq_none.mpr hnot] at hin
  cases hin

theorem Tracks.unique {keys keys' : List Key} (h : Tracks s pending)
    (hw : (fd, keys) ∈ pending) (hw' : (fd, keys') ∈ pending) : keys = keys' :=
  congrArg Prod.snd (inj_on_of_nodup_map h.once hw hw' rfl)

theorem mem_survivors : (fd, keys) ∈ survivors s t pending ↔
      ∃ old, (fd, old) ∈ pending ∧ keys = old.filter (fun key => ¬ created s t key) ∧
        keys ≠ [] := by
  rw [survivors, mem_filter, progressed, mem_map]
  constructor
  · rintro ⟨⟨⟨fd', old⟩, hw, heq⟩, hne⟩
    cases heq
    exact ⟨old, hw, rfl, of_decide_eq_true hne⟩
  · rintro ⟨old, hw, rfl, hne⟩
    exact ⟨⟨(fd, old), hw, rfl⟩, decide_eq_true hne⟩

theorem mem_finished : fd ∈ finished s t pending ↔
      ∃ keys, (fd, keys) ∈ pending ∧ ∀ key ∈ keys, created s t key = true := by
  rw [finished, mem_map]
  constructor
  · rintro ⟨w, hw, rfl⟩
    obtain ⟨hw, hempty⟩ := mem_filter.mp hw
    obtain ⟨old, hold, rfl⟩ := mem_map.mp hw
    refine ⟨old.2, hold, fun key hkey => ?_⟩
    have hall := filter_eq_nil_iff.mp (of_decide_eq_true hempty) key hkey
    simpa using hall
  · rintro ⟨keys, hw, hall⟩
    refine ⟨(fd, keys.filter (fun key => ¬ created s t key)), mem_filter.mpr
      ⟨mem_map.mpr ⟨(fd, keys), hw, rfl⟩, decide_eq_true ?_⟩, rfl⟩
    refine filter_eq_nil_iff.mpr (fun key hkey => ?_)
    simp [hall key hkey]

theorem map_fst_progressed : (progressed s t pending).map Prod.fst = pending.map Prod.fst := by
  rw [progressed, map_map]
  rfl

theorem survivors_once (h : (pending.map Prod.fst).Nodup) :
    ((survivors s t pending).map Prod.fst).Nodup := by
  rw [← map_fst_progressed (s := s) (t := t)] at h
  exact h.sublist (filter_sublist.map _)

theorem finished_once (h : (pending.map Prod.fst).Nodup) : (finished s t pending).Nodup := by
  rw [← map_fst_progressed (s := s) (t := t)] at h
  exact h.sublist (filter_sublist.map _)
section

variable (h : Tracks s pending)
include h

section

variable (hnew : ∀ k ∈ t.tcpStore, k ∉ s.tcpStore → k ∉ s.waitingSockets)
include hnew

theorem Tracks.progressed_eq :
    progressed s t pending = pending := by
  have hsame : ∀ w ∈ pending, (w.1, w.2.filter (fun key => ¬ created s t key)) = w := by
    rintro ⟨fd, keys⟩ hw
    refine Prod.ext rfl (filter_eq_self.mpr (fun key hkey => ?_))
    have hawaited := h.awaited hw hkey
    simp only [created, decide_eq_true_eq, not_and]
    exact fun hout hin => hnew key hin hout hawaited
  rw [progressed, map_congr_left hsame, map_id']

theorem Tracks.survivors_eq :
    survivors s t pending = pending := by
  rw [survivors, h.progressed_eq hnew, filter_eq_self]
  exact fun w hw => decide_eq_true (h.nonempty w hw)

theorem Tracks.finished_eq :
    finished s t pending = [] := by
  rw [finished, h.progressed_eq hnew, map_eq_nil_iff, filter_eq_nil_iff]
  intro w hw
  simpa using h.nonempty w hw

end

/-- Where the contents stay, every pending wait stays as it is. -/
theorem Tracks.kept (hstore : t.tcpStore = s.tcpStore) :
    survivors s t pending = pending ∧ finished s t pending = [] := by
  have hnew : ∀ k ∈ t.tcpStore, k ∉ s.tcpStore → k ∉ s.waitingSockets :=
    fun k hk hout => absurd (hstore ▸ hk) hout
  exact ⟨h.survivors_eq hnew, h.finished_eq hnew⟩

/-- A step that wakes nobody keeps the pending waits. -/
theorem Tracks.quiet (hquiet : s.Quiet t)
    (hnew : ∀ k ∈ t.tcpStore, k ∉ s.tcpStore → k ∉ s.waitingSockets) : Tracks t pending := by
  refine ⟨fun k hk => ?_, fun fd => ?_, fun fd k => ?_, h.once, fun w hw => ?_, h.nonempty⟩
  · rw [hquiet.waiting]
    by_cases hold : k ∈ s.tcpStore
    · exact h.absent k hold
    · exact hnew k hk hold
  · rw [hquiet.awaited, hquiet.waiting]
    exact h.counted fd
  · rw [hquiet.waiting]
    exact h.waits fd k
  · rw [hquiet.connections]
    exact h.isOpen w hw

section

variable (hstore : ∀ k, k ∈ t.tcpStore ↔ k = key ∨ k ∈ s.tcpStore)
include hstore

theorem Tracks.created_iff {k : Key} (hw : (fd, keys) ∈ pending) (hk : k ∈ keys) :
    created s t k = true ↔ k = key := by
  have hout : k ∉ s.tcpStore := fun hin => h.absent k hin (h.awaited hw hk)
  simp [created, hout, hstore k]

/-- A step that creates a key leaves the waits that survive. -/
theorem Tracks.woken (hwoken : s.Woken key t) :
    Tracks t (survivors s t pending) := by
  refine ⟨fun k hk => ?_, fun fd => ?_, fun fd k => ?_, survivors_once h.once, ?_, ?_⟩
  · rw [hwoken.waiting, AList.mem_erase]
    rintro ⟨hne, hin⟩
    exact h.absent k (((hstore k).mp hk).resolve_left hne) hin
  · rw [hwoken.awaited, hwoken.waiting, h.counted, occurrences_erase s.waitingSockets key fd]
    omega
  · rw [hwoken.waiting]
    by_cases hk : k = key
    · subst hk
      have hnone : valuesAt (s.waitingSockets.erase k) k = [] := by
        rw [valuesAt, AList.lookup_erase]
        rfl
      rw [hnone]
      refine ⟨fun hin => absurd hin not_mem_nil, ?_⟩
      rintro ⟨keys, hw, hin⟩
      obtain ⟨old, hold, rfl, _⟩ := mem_survivors.mp hw
      obtain ⟨hin, hleft⟩ := mem_filter.mp hin
      exact absurd ((h.created_iff hstore hold hin).mpr rfl) (by simpa using hleft)
    · rw [valuesAt_erase_of_ne _ _ hk, h.waits]
      constructor
      · rintro ⟨keys, hw, hin⟩
        have hleft : k ∈ keys.filter (fun key => ¬ created s t key) := by
          refine mem_filter.mpr ⟨hin, ?_⟩
          have hnot := mt (h.created_iff hstore hw hin).mp hk
          simpa using hnot
        exact ⟨_, mem_survivors.mpr ⟨keys, hw, rfl, ne_nil_of_mem hleft⟩, hleft⟩
      · rintro ⟨keys, hw, hin⟩
        obtain ⟨old, hold, rfl, _⟩ := mem_survivors.mp hw
        exact ⟨old, hold, (mem_filter.mp hin).1⟩
  · rintro ⟨fd, keys⟩ hw
    obtain ⟨old, hold, _⟩ := mem_survivors.mp hw
    rw [hwoken.connections]
    exact h.isOpen (fd, old) hold
  · rintro ⟨fd, keys⟩ hw
    obtain ⟨old, _, _, hne⟩ := mem_survivors.mp hw
    exact hne

theorem Tracks.mem_finished_iff :
    fd ∈ finished s t pending ↔ fd ∈ valuesAt s.waitingSockets key ∧
      (valuesAt s.waitingSockets key).count fd = s.keysAwaited fd := by
  have hsplit := occurrences_erase s.waitingSockets key fd
  rw [mem_finished, h.counted]
  constructor
  · rintro ⟨keys, hw, hall⟩
    have honly : ∀ k ∈ keys, k = key := fun k hk => (h.created_iff hstore hw hk).mp (hall k hk)
    obtain ⟨k, hk⟩ := exists_mem_of_ne_nil keys (h.nonempty _ hw)
    refine ⟨(h.waits fd key).mpr ⟨keys, hw, honly k hk ▸ hk⟩, ?_⟩
    have hzero : occurrences (s.waitingSockets.erase key) fd = 0 := by
      rw [occurrences_eq_zero]
      intro k' hin
      by_cases hk' : k' = key
      · rw [hk', valuesAt, AList.lookup_erase] at hin
        cases hin
      · rw [valuesAt_erase_of_ne _ _ hk', h.waits] at hin
        obtain ⟨keys', hw', hin⟩ := hin
        rw [h.unique hw' hw] at hin
        exact hk' (honly k' hin)
    omega
  · rintro ⟨hin, hcount⟩
    obtain ⟨keys, hw, _⟩ := (h.waits fd key).mp hin
    refine ⟨keys, hw, fun k hk => (h.created_iff hstore hw hk).mpr ?_⟩
    by_contra hne
    have hzero : occurrences (s.waitingSockets.erase key) fd = 0 := by omega
    have hout := (occurrences_eq_zero _ _).mp hzero k
    rw [valuesAt_erase_of_ne _ _ hne, h.waits] at hout
    exact hout ⟨keys, hw, hk⟩

theorem Tracks.woken_stops (hwoken : s.Woken key t)
    (halive : s.ReleasedAlive (valuesAt s.waitingSockets key)) (fd : Fd) :
    (Server.stops t.outbox).count fd = (Server.stops s.outbox).count fd +
      ((finished s t pending).filter s.alive).count fd := by
  have hall : (finished s t pending).filter s.alive = finished s t pending := by
    refine filter_eq_self.mpr (fun g hg => ?_)
    obtain ⟨hin, hcount⟩ := (h.mem_finished_iff hstore).mp hg
    exact halive g hin hcount
  rw [hall, hwoken.stops, (finished_once h.once).count]
  simp only [h.mem_finished_iff hstore]

end

/-- Closing a socket takes its waits away. -/
theorem Tracks.closeSocket (fd : Fd) :
    Tracks (s.closeSocket fd) (pending.filter (fun w => w.1 ≠ fd)) := by
  refine ⟨fun k hk => notMem_remove _ _ (h.absent k hk), fun g => ?_, fun g k => ?_,
    h.once.sublist (filter_sublist.map _), fun w hw => ?_, fun w hw => ?_⟩
  · show update s.keysAwaited fd 0 g = occurrences (s.waitingSockets.remove fd) g
    by_cases hg : g = fd
    · rw [hg, update_self, occurrences_remove_self]
    · rw [update_of_ne hg, occurrences_remove_of_ne _ _ hg, h.counted]
  · show g ∈ valuesAt (s.waitingSockets.remove fd) k ↔ _
    rw [valuesAt_remove, mem_filter, h.waits]
    constructor
    · rintro ⟨⟨keys, hw, hin⟩, hne⟩
      exact ⟨keys, mem_filter.mpr ⟨hw, hne⟩, hin⟩
    · rintro ⟨keys, hw, hin⟩
      obtain ⟨hw, hne⟩ := mem_filter.mp hw
      exact ⟨⟨keys, hw, hin⟩, hne⟩
  · obtain ⟨hw, hne⟩ := mem_filter.mp hw
    show (update s.connections fd none w.1).isSome
    rw [update_of_ne (of_decide_eq_true hne)]
    exact h.isOpen w hw
  · exact h.nonempty w (mem_filter.mp hw).1

end

theorem intToSize_eq {k : Nat} (h : k < 2 ^ 31) : intToSize k = k := by
  have hmsb : (BitVec.ofNat 32 k).msb = false := by
    rw [BitVec.msb_eq_decide, BitVec.toNat_ofNat, decide_eq_false_iff_not]
    omega
  rw [intToSize, BitVec.signExtend_eq_setWidth_of_msb_false hmsb, BitVec.toNat_setWidth,
    BitVec.toNat_ofNat]
  omega

/-- A new wait is pending on its missing keys. -/
theorem Tracks.wait (h : Tracks s pending)
    (hopen : (s.connections fd).isSome) (hmissing : s.checkKeys keys = false)
    (hidle : occurrences s.waitingSockets fd = 0) (hfew : (s.missing keys).length < 2 ^ 31) :
    Tracks { s with
      waitingSockets := (s.missing keys).foldl (fun m key => m.push key fd) s.waitingSockets
      keysAwaited := update s.keysAwaited fd (intToSize (s.missing keys).length) }
      (pending ++ [(fd, s.missing keys)]) := by
  have hnew : fd ∉ pending.map Prod.fst := by
    intro hin
    obtain ⟨⟨fd', ks⟩, hw, rfl⟩ := mem_map.mp hin
    obtain ⟨k, hk⟩ := exists_mem_of_ne_nil ks (h.nonempty _ hw)
    exact (occurrences_eq_zero _ _).mp hidle k ((h.waits _ k).mpr ⟨ks, hw, hk⟩)
  refine ⟨fun k hk hin => ?_, fun g => ?_, fun g k => ?_, ?_, fun w hw => ?_, fun w hw => ?_⟩
  · rcases (mem_foldl_push _ _ _ _).mp hin with hin | hin
    · exact h.absent k hk hin
    · exact of_decide_eq_true (mem_filter.mp hin).2 hk
  · show update s.keysAwaited fd _ g = occurrences _ g
    rw [occurrences_foldl_push]
    by_cases hg : g = fd
    · subst hg
      rw [update_self, if_pos rfl, hidle, Nat.zero_add, intToSize_eq hfew]
    · rw [update_of_ne hg, if_neg (fun heq => hg heq.symm), Nat.add_zero, h.counted]
  · show g ∈ valuesAt (List.foldl _ _ _) k ↔ _
    rw [mem_valuesAt_foldl_push, h.waits]
    constructor
    · rintro (⟨ks, hw, hk⟩ | ⟨rfl, hk⟩)
      · exact ⟨ks, mem_append_left _ hw, hk⟩
      · exact ⟨_, mem_append_right _ mem_cons_self, hk⟩
    · rintro ⟨ks, hw, hk⟩
      rcases mem_append.mp hw with hw | hw
      · exact .inl ⟨ks, hw, hk⟩
      · cases mem_singleton.mp hw
        exact .inr ⟨rfl, hk⟩
  · rw [map_append, nodup_append']
    refine ⟨h.once, nodup_singleton _, fun g hg hg' => ?_⟩
    have heq : g = fd := mem_singleton.mp hg'
    exact hnew (heq ▸ hg)
  · rcases mem_append.mp hw with hw | hw
    · exact h.isOpen w hw
    · cases mem_singleton.mp hw
      exact hopen
  · rcases mem_append.mp hw with hw | hw
    · exact h.nonempty w hw
    · cases mem_singleton.mp hw
      intro hnil
      rw [Server.missing, filter_eq_nil_iff] at hnil
      rw [Server.checkKeys, all_eq_false] at hmissing
      obtain ⟨k, hk, hout⟩ := hmissing
      exact hnil k hk (by simpa using hout)

end Tracking

section Steps

variable {s t s' : Server} {pending : Pending} {fd : Fd} {e : Event}

theorem Server.serve_cases (fd : Fd) (request : Request) (s : Server) :
    s.serve fd request = Server.result (Server.query fd request s) ∨
      s.serve fd request = (Server.result (Server.query fd request s)).closeSocket fd := by
  rw [Server.serve]
  cases Server.query fd request s with
  | ok t => exact .inl rfl
  | error t => exact .inr rfl

theorem Tracks.observe_serve
    (h : Tracks t (survivors s t pending ++ newWait s e)) (hconn : t.connections = s.connections)
    (hopen : (s.connections fd).isSome) (hs' : s' = t ∨ s' = t.closeSocket fd) :
    Tracks s' (observe s s' e pending) := by
  rcases hs' with rfl | rfl
  · have hall : observe s s' e pending = survivors s s' pending ++ newWait s e := by
      refine filter_eq_self.mpr (fun w _ => decide_eq_true ?_)
      rw [hconn]
    rw [hall]
    exact h
  · have hothers : observe s (t.closeSocket fd) e pending =
        (survivors s t pending ++ newWait s e).filter (fun w => w.1 ≠ fd) := by
      refine filter_congr (fun w _ => ?_)
      show decide (update t.connections fd none w.1 = s.connections w.1) = _
      by_cases hw : w.1 = fd
      · obtain ⟨c, hc⟩ := Option.isSome_iff_exists.mp hopen
        rw [hw, update_self, hc]
        simp
      · rw [update_of_ne hw, hconn]
        simp [hw]
    rw [hothers]
    exact h.closeSocket fd

theorem owed_eq {s₀ : Server} (himmediate : immediate s e = []) :
    owed s s₀ e pending = (finished s s₀ pending).filter s.alive := by
  rw [owed, himmediate, append_nil]

variable (h : Tracks s pending)
include h

theorem tracks_wait {keys : List Key} (hempty : s.outbox = [])
    (hsafe : WakeUpSafe s (.request fd (.wait keys))) (hopen : (s.connections fd).isSome) :
    Tracks (s.serve fd (.wait keys))
        (observe s (s.serve fd (.wait keys)) (.request fd (.wait keys)) pending) ∧
      ∀ g, (Server.stops (s.serve fd (.wait keys)).outbox).count g =
        (owed s (s.serve fd (.wait keys)) (.request fd (.wait keys)) pending).count g := by
  cases hcheck : s.checkKeys keys with
  | true =>
    have hquery : Server.query fd (.wait keys) s = Server.send fd .stopWaiting s := if_pos hcheck
    have himmediate : immediate s (.request fd (.wait keys)) = [fd] := if_pos hcheck
    have hnewWait : newWait s (.request fd (.wait keys)) = [] := if_neg (fun hw => hw.2 hcheck)
    cases halive : s.alive fd with
    | false =>
      have hserve : s.serve fd (.wait keys) = s.closeSocket fd := by
        rw [Server.serve, hquery, Server.send_dead halive]
      have hfinished : finished s (s.closeSocket fd) pending = [] := (h.kept rfl).2
      rw [hserve]
      refine ⟨Tracks.observe_serve (t := s) ?_ rfl hopen (.inr rfl), fun g => ?_⟩
      · rw [hnewWait, append_nil, (h.kept rfl).1]
        exact h
      · rw [owed, hfinished, himmediate]
        show (Server.stops s.outbox).count g = _
        simp [hempty, Server.stops, halive]
    | true =>
      obtain ⟨c, hc, hthere⟩ := Server.alive_iff.mp halive
      have hserve : s.serve fd (.wait keys) =
          { s with outbox := s.outbox ++ [⟨fd, c, .stopWaiting⟩] } := by
        rw [Server.serve, hquery, Server.send_eq hc hthere]
      obtain ⟨hsurvive, hfinished⟩ := h.kept (t := s.serve fd (.wait keys)) (by rw [hserve])
      have hconn : (s.serve fd (.wait keys)).connections = s.connections := by rw [hserve]
      refine ⟨Tracks.observe_serve ?_ hconn hopen (.inl rfl), fun g => ?_⟩
      · rw [hnewWait, append_nil, hsurvive, hserve]
        exact ⟨h.absent, h.counted, h.waits, h.once, h.isOpen, h.nonempty⟩
      · rw [owed, hfinished, himmediate, hserve]
        simp [hempty, Server.stops, halive]
  | false =>
    have hquery : Server.query fd (.wait keys) s = .ok { s with
        waitingSockets := (s.missing keys).foldl (fun m key => m.push key fd) s.waitingSockets
        keysAwaited := update s.keysAwaited fd (intToSize (s.missing keys).length) } :=
      if_neg (by simp [hcheck])
    have himmediate : immediate s (.request fd (.wait keys)) = [] := if_neg (by simp [hcheck])
    have hnewWait : newWait s (.request fd (.wait keys)) = [(fd, s.missing keys)] :=
      if_pos ⟨hopen, by simp [hcheck]⟩
    obtain ⟨hidle, hfew⟩ := hsafe.resolve_left (by simp [hcheck])
    have hserve : s.serve fd (.wait keys) = { s with
        waitingSockets := (s.missing keys).foldl (fun m key => m.push key fd) s.waitingSockets
        keysAwaited :=
          update s.keysAwaited fd (intToSize (s.missing keys).length) } := by
      rw [Server.serve, hquery]
    obtain ⟨hsurvive, hfinished⟩ := h.kept (t := s.serve fd (.wait keys)) (by rw [hserve])
    have hconn : (s.serve fd (.wait keys)).connections = s.connections := by rw [hserve]
    refine ⟨Tracks.observe_serve ?_ hconn hopen (.inl rfl), fun g => ?_⟩
    · rw [hnewWait, hsurvive, hserve]
      exact h.wait hopen hcheck hidle hfew
    · rw [owed, hfinished, himmediate, hserve]
      simp [hempty, Server.stops]

theorem tracks_request {request : Request} (hempty : s.outbox = [])
    (hsafe : WakeUpSafe s (.request fd request)) (hopen : (s.connections fd).isSome) :
    Tracks (s.serve fd request) (observe s (s.serve fd request) (.request fd request) pending) ∧
      ∀ g, (Server.stops (s.serve fd request).outbox).count g =
        (owed s (s.serve fd request) (.request fd request) pending).count g := by
  have hcases := Server.serve_cases fd request s
  have hstart : Server.stops s.outbox = [] := by rw [hempty]; rfl
  -- The clean-up changes neither the store nor the outbox.
  have hsame : (s.serve fd request).outbox = (Server.result (Server.query fd request s)).outbox ∧
      finished s (s.serve fd request) pending =
        finished s (Server.result (Server.query fd request s)) pending := by
    rcases hcases with heq | heq
    · rw [heq]
      exact ⟨rfl, rfl⟩
    · rw [heq]
      exact ⟨rfl, rfl⟩
  have hwoken : ∀ key, s.Woken key (Server.result (Server.query fd request s)) →
      (∀ k, k ∈ (Server.result (Server.query fd request s)).tcpStore ↔ k = key ∨ k ∈ s.tcpStore) →
      s.ReleasedAlive (valuesAt s.waitingSockets key) →
      newWait s (.request fd request) = [] → immediate s (.request fd request) = [] →
      Tracks (s.serve fd request) (observe s (s.serve fd request) (.request fd request) pending) ∧
        ∀ g, (Server.stops (s.serve fd request).outbox).count g =
          (owed s (s.serve fd request) (.request fd request) pending).count g := by
    intro key hwoken hstore halive hnewWait himmediate
    refine ⟨Tracks.observe_serve ?_ hwoken.connections hopen hcases, fun g => ?_⟩
    · rw [hnewWait, append_nil]
      exact h.woken hstore hwoken
    · rw [owed_eq himmediate, hsame.1, hsame.2, h.woken_stops hstore hwoken halive g, hstart,
        count_nil, Nat.zero_add]
  cases hwakes : request.wakes with
  | false =>
    obtain ⟨hquiet, hnew⟩ := Server.result_query_quiet hwakes hsafe
    have hnewWait : newWait s (.request fd request) = [] := by
      cases request <;> first | rfl | cases hwakes
    have himmediate : immediate s (.request fd request) = [] := by
      cases request <;> first | rfl | cases hwakes
    refine ⟨Tracks.observe_serve ?_ hquiet.connections hopen hcases, fun g => ?_⟩
    · rw [hnewWait, append_nil, h.survivors_eq hnew]
      exact h.quiet hquiet hnew
    · rw [owed_eq himmediate, hsame.1, hsame.2, h.finished_eq hnew, hquiet.stops, hstart]
      rfl
  | true =>
    cases request with
    | set key newData =>
      obtain ⟨hw, hstore⟩ := Server.result_setHandler h.counted hsafe newData
      exact hwoken key hw hstore hsafe rfl rfl
    | add key addVal =>
      obtain ⟨hw, hstore⟩ := Server.result_addHandler h.counted hsafe.2 fd addVal
        (h.absent key) hsafe.1
      exact hwoken key hw hstore hsafe.2 rfl rfl
    | wait keys => exact tracks_wait h hempty hsafe hopen
    | compareSet key currentValue newValue => cases hwakes
    | get key => cases hwakes
    | check keys => cases hwakes
    | getNumKeys => cases hwakes
    | watchKey key => cases hwakes
    | deleteKey key => cases hwakes

theorem tracks_unchanged (hstore : t.tcpStore = s.tcpStore)
    (hwaiting : t.waitingSockets = s.waitingSockets) (hawaited : t.keysAwaited = s.keysAwaited)
    (hconn : ∀ w ∈ pending, t.connections w.1 = s.connections w.1) (hempty : t.outbox = [])
    (hnewWait : newWait s e = []) (himmediate : (immediate s e).filter s.alive = []) :
    Tracks t (observe s t e pending) ∧
      ∀ g, (Server.stops t.outbox).count g = (owed s t e pending).count g := by
  obtain ⟨hsurvive, hfinished⟩ := h.kept hstore
  have hobserve : observe s t e pending = pending := by
    rw [observe, hnewWait, append_nil, hsurvive, filter_eq_self]
    exact fun w hw => decide_eq_true (hconn w hw)
  rw [hobserve]
  refine ⟨⟨?_, ?_, ?_, h.once, fun w hw => ?_, h.nonempty⟩, fun g => ?_⟩
  · rw [hstore, hwaiting]
    exact h.absent
  · rw [hawaited, hwaiting]
    exact h.counted
  · rw [hwaiting]
    exact h.waits
  · rw [hconn w hw]
    exact h.isOpen w hw
  · rw [owed, filter_append, himmediate, hfinished, hempty]
    rfl

theorem tracks_handle (hempty : s.outbox = []) (hsafe : WakeUpSafe s e) :
    Tracks (s.handle e) (observe s (s.handle e) e pending) ∧
      ∀ fd, (Server.stops (s.handle e).outbox).count fd =
        (owed s (s.handle e) e pending).count fd := by
  cases e with
  | accept fd =>
    rw [Server.handle]
    cases hfree : s.connections fd with
    | some c => exact tracks_unchanged h rfl rfl rfl (fun _ _ => rfl) hempty rfl rfl
    | none =>
      refine tracks_unchanged h rfl rfl rfl (fun w hw => ?_) hempty rfl rfl
      have hne : w.1 ≠ fd := by
        intro heq
        have hopen := h.isOpen w hw
        rw [heq, hfree] at hopen
        cases hopen
      exact update_of_ne hne _ _
  | disconnect c => exact tracks_unchanged h rfl rfl rfl (fun _ _ => rfl) hempty rfl rfl
  | request fd request =>
    rw [Server.handle]
    by_cases hopen : (s.connections fd).isSome
    · rw [if_pos hopen]
      exact tracks_request h hempty hsafe hopen
    · rw [if_neg hopen]
      have hnewWait : newWait s (.request fd request) = [] := by
        cases request <;> first | rfl | exact if_neg (fun hw => hopen hw.1)
      have hdead : s.alive fd = false := by
        rw [Server.alive, Option.not_isSome_iff_eq_none.mp hopen]
      have himmediate : (immediate s (.request fd request)).filter s.alive = [] := by
        cases request with
        | wait keys =>
          rw [immediate]
          split <;> simp [hdead]
        | _ => rfl
      exact tracks_unchanged h rfl rfl rfl (fun _ _ => rfl) hempty hnewWait himmediate
  | hangUp fd =>
    rw [Server.handle]
    by_cases hdead : (s.connections fd).isSome ∧ ¬ s.alive fd
    · rw [if_pos hdead]
      refine ⟨Tracks.observe_serve (t := s) ?_ rfl hdead.1 (.inr rfl), fun g => ?_⟩
      · rw [(h.kept rfl).1]
        exact (append_nil pending).symm ▸ h
      · have hfinished : finished s (s.closeSocket fd) pending = [] := (h.kept rfl).2
        rw [owed, hfinished]
        show (Server.stops s.outbox).count g = _
        simp [hempty, Server.stops, immediate]
    · rw [if_neg hdead]
      exact tracks_unchanged h rfl rfl rfl (fun _ _ => rfl) hempty rfl rfl

/-- One event keeps the invariant, and `STOP_WAITING` is sent to the sockets that are owed
it. -/
theorem tracks_step (hsafe : WakeUpSafe s e) :
    Tracks (s.step e) (observe s (s.step e) e pending) ∧
      ∀ fd, (Server.stops (s.step e).outbox).count fd = (owed s (s.step e) e pending).count fd := by
  have hclear : Tracks { s with outbox := [] } pending :=
    ⟨h.absent, h.counted, h.waits, h.once, h.isOpen, h.nonempty⟩
  exact tracks_handle hclear rfl hsafe

end Steps

section Runs

theorem tracks_initial : Tracks Server.initial [] where
  absent _ h := absurd h (AList.notMem_empty _)
  counted _ := rfl
  waits fd key := by simp [valuesAt, Server.initial]
  once := nodup_nil
  isOpen _ h := absurd h not_mem_nil
  nonempty _ h := absurd h not_mem_nil

/-- In every run whose events meet the condition, the counters are right, and every event sends
`STOP_WAITING` exactly to the sockets whose waits it ends. -/
theorem wake_ups_not_lost (events : List Event)
    (hsafe : wakeUps.Admissible (fun w e => WakeUpSafe w.1 e) wakeUps.init events) :
    (∀ key ∈ (wakeUps.exec wakeUps.init events).1.tcpStore,
      key ∉ (wakeUps.exec wakeUps.init events).1.waitingSockets) ∧
    (∀ fd, (wakeUps.exec wakeUps.init events).1.keysAwaited fd =
      occurrences (wakeUps.exec wakeUps.init events).1.waitingSockets fd) ∧
    ∀ o ∈ wakeUps.outcomes wakeUps.init events, ∀ fd, o.1.count fd = o.2.count fd := by
  have hstep : ∀ (w : Server × Pending) (e : Event), Tracks w.1 w.2 → WakeUpSafe w.1 e →
      Tracks (wakeUps.next w e).1 (wakeUps.next w e).2 ∧
        ∀ fd, (wakeUps.step w e).2.1.count fd = (wakeUps.step w e).2.2.count fd :=
    fun w e h hsafe => tracks_step h hsafe
  have htracks := wakeUps.exec_invariant (fun w e => WakeUpSafe w.1 e)
    (fun w => Tracks w.1 w.2) (fun w e h hsafe => (hstep w e h hsafe).1) events wakeUps.init
    tracks_initial hsafe
  refine ⟨htracks.absent, htracks.counted, ?_⟩
  exact wakeUps.outcomes_invariant (fun w e => WakeUpSafe w.1 e) (fun w => Tracks w.1 w.2)
    (fun o => ∀ fd, o.1.count fd = o.2.count fd) hstep events wakeUps.init tracks_initial hsafe

/-- A client waits for two keys, one of them named twice, and another client creates them. -/
def twoKeys : List Event :=
  [.accept 4, .accept 5, .request 4 (.wait [[97], [98], [97]]), .request 5 (.set [97] [1]),
    .request 5 (.deleteKey [97]), .request 5 (.add [98] 2)]

/-- A wait for two keys is answered when the second one comes. -/
theorem wake_ups_twoKeys : wakeUps.outcomes wakeUps.init twoKeys =
        [([], []), ([], []), ([], []), ([], []), ([], []), ([4], [4])] ∧
      ∀ o ∈ wakeUps.outcomes wakeUps.init twoKeys, ∀ fd, o.1.count fd = o.2.count fd :=
  ⟨by decide, (wake_ups_not_lost twoKeys (by decide)).2.2⟩

/-- A client waits for a key, and another client creates it with `COMPARE_SET`. -/
def awaitedCompareSet : List Event :=
  [.accept 4, .accept 5, .request 4 (.wait [[97]]), .request 5 (.compareSet [97] [] [1])]

/-- The key is in the store, and the client that waits for it is not woken. -/
theorem compareSet_loses_wake_up : [97] ∈ (wakeUps.exec wakeUps.init awaitedCompareSet).1.tcpStore ∧
      [97] ∈ (wakeUps.exec wakeUps.init awaitedCompareSet).1.waitingSockets ∧
      wakeUps.outcomes wakeUps.init awaitedCompareSet =
        [([], []), ([], []), ([], []), ([], [4])] := by
  decide

end Runs

end PyTorchCore.TcpStore
