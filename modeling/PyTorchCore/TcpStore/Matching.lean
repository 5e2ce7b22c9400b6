import PyTorchCore.TcpStore.SocketEffects

/-!
# Matching responses

A call that gave up is still known to the server, and the bytes that answer it arrive later, in
front of the response to some other call.
-/

namespace PyTorchCore.TcpStore

open Lib Server
open Option Function List
open Lib.Multimap

section Condition

/-- The call waits for the `WAIT` that the server counts. -/
def awaitsRegistered (w : Session) : Bool :=
  match w.call, w.registered with
  | some (id, .stopWaiting _), some registered => id = registered
  | _, _ => false

/-- A request wakes the client only from the wait that it is in, together with clients that
are all there, and does not take it for a watcher. -/
def wakeSafe (w : Session) (request : Request) : Bool :=
  match w.linked with
  | none => true
  | some fd =>
    (request.wakesKey w.server).all (fun key =>
      fd ∉ valuesAt w.server.waitingSockets key ∨
        (∀ g ∈ valuesAt w.server.waitingSockets key, w.server.alive g = true) ∧
        ((valuesAt w.server.waitingSockets key).count fd = w.server.keysAwaited fd →
          awaitsRegistered w = true)) &&
      (request.updates w.server).all (fun key => fd ∉ w.server.watchedSockets key)

/-- The condition on an action: a call gives up only before the server answered it, the server
answers no call that was given up, and handles no `WAIT` for missing keys while it counts
another one. -/
def matchable (w : Session) : Action → Bool
  | .serve =>
    match w.linked, w.outgoing with
    | some fd, (id, request) :: _ =>
      (request.answer w.server).all
          (fun message => message.fits && decide (w.call.map Prod.fst = some id)) &&
        match request with
        | .wait keys =>
          w.server.checkKeys keys || decide (occurrences w.server.waitingSockets fd = 0 ∧
            (w.server.missing keys).length < 2 ^ 31)
        | request => wakeSafe w request
    | _, _ => true
  | .other (.request fd request) => w.linked = some fd ∨ wakeSafe w request
  | .timeout => w.call = none ∨ w.incoming = []
  | _ => true

end Condition

section Invariant

/-- A call reads the kind of response that a request has. -/
def Awaiting.reads : Awaiting → Request → Bool
  | .stopWaiting _, .wait _ => true
  | .checked, .check _ => true
  | .number, .add _ _ => true
  | .number, .deleteKey _ => true
  | .number, .getNumKeys => true
  | .vector, .get _ => true
  | .vector, .compareSet _ _ _ => true
  | _, _ => false

/-- The server did not answer the request of the call yet. -/
def Unanswered (w : Session) (id : Nat) (a : Awaiting) : Prop :=
  w.incoming = [] ∧ w.responses id = [] ∧
    (w.outgoing = [] ∨ ∃ front request, w.outgoing = front ++ [(id, request)] ∧
      a.reads request = true)

/-- The response to the call is all that is under way. -/
def Answered (w : Session) (id : Nat) (a : Awaiting) : Prop :=
  w.outgoing = [] ∧
    (w.registered = some id → ∀ fd, w.linked = some fd →
      occurrences w.server.waitingSockets fd = 0) ∧
    ∃ message, a.accepts message = true ∧ message.fits = true ∧
      w.responses id = message.bytes ∧ w.incoming = message.bytes.map (fun b => (some id, b))

structure Consistent (w : Session) : Prop where
  confined : w.server.Confined
  link : ∀ fd c, w.link = some (fd, c) → c < w.server.nextConnection
  counted : ∀ fd, w.linked = some fd →
    w.server.keysAwaited fd = occurrences w.server.waitingSockets fd
  unlinked : w.link = none → w.outgoing = [] ∧ w.call = none
  idle : w.call = none → w.incoming = []
  queued : ∀ p ∈ w.outgoing, p.1 < w.sent ∧ w.responses p.1 = [] ∧ w.registered ≠ some p.1
  distinct : (w.outgoing.map Prod.fst).Nodup
  registered : ∀ id, w.registered = some id → id < w.sent
  future : ∀ id, w.sent ≤ id → w.responses id = []
  current : ∀ id a, w.call = some (id, a) →
    id < w.sent ∧ (Unanswered w id a ∨ Answered w id a)

theorem consistent_initial : Consistent Session.initial where
  confined := ⟨fun _ _ => ⟨rfl, rfl⟩, fun _ _ hc => by cases hc⟩
  link _ _ hl := by cases hl
  counted _ hl := by cases hl
  unlinked _ := ⟨rfl, rfl⟩
  idle _ := rfl
  queued _ hp := by cases hp
  distinct := nodup_nil
  registered _ hr := by cases hr
  future _ _ := rfl
  current _ _ hc := by cases hc

end Invariant

section Link

variable {w : Session} {fd : Fd}

/-- The socket that the connection has at the server. -/
theorem linked_eq_some : w.linked = some fd ↔
    ∃ c, w.link = some (fd, c) ∧ w.server.connections fd = some c := by
  rw [Session.linked]
  cases hlink : w.link with
  | none => simp
  | some p =>
    obtain ⟨fd', c⟩ := p
    show (if w.server.connections fd' = some c then some fd' else none) = some fd ↔ _
    by_cases hconn : w.server.connections fd' = some c
    · rw [if_pos hconn]
      constructor
      · rintro heq
        cases heq
        exact ⟨c, rfl, hconn⟩
      · rintro ⟨c', heq, _⟩
        cases heq
        rfl
    · rw [if_neg hconn]
      constructor
      · intro heq
        cases heq
      · rintro ⟨c', heq, hconn'⟩
        cases heq
        exact absurd hconn' hconn

theorem Server.connections_step {s : Server} {e : Event} {g : Fd} {c : Nat}
    (hold : c < s.nextConnection) (h : (s.step e).connections g = some c) :
    s.connections g = some c := by
  have hclose : ∀ (t : Server) (fd : Fd), t.connections = s.connections →
      (t.closeSocket fd).connections g = some c → s.connections g = some c := by
    intro t fd heq hc
    have hc' : update t.connections fd none g = some c := hc
    by_cases hfd : g = fd
    · rw [hfd, update_self] at hc'
      cases hc'
    · rw [update_of_ne hfd, heq] at hc'
      exact hc'
  rw [Server.step] at h
  cases e with
  | accept fd =>
    rw [Server.handle] at h
    split at h
    · exact h
    · have hc : update s.connections fd (some s.nextConnection) g = some c := h
      by_cases hfd : g = fd
      · rw [hfd, update_self, some_inj] at hc
        omega
      · rw [update_of_ne hfd] at hc
        exact hc
  | request fd request =>
    rw [Server.handle] at h
    split at h
    · have hconn := (Server.untouched_query (Nat.succ_ne_self fd).symm request
        { s with outbox := [] }).connections
      rcases serve_cases fd request { s with outbox := [] } with heq | heq
      · rw [heq, hconn] at h
        exact h
      · rw [heq] at h
        exact hclose _ fd hconn h
    · exact h
  | disconnect c' => exact h
  | hangUp fd =>
    rw [Server.handle] at h
    split at h
    · exact hclose _ fd rfl h
    · exact h

theorem Consistent.linked_step {s' : Server} {e : Event} (h : Consistent w)
    (hs' : s' = w.server.step e) (hlinked : { w with server := s' }.linked = some fd) :
    w.linked = some fd := by
  obtain ⟨c, hlink, hconn⟩ := linked_eq_some.mp hlinked
  rw [hs'] at hconn
  exact linked_eq_some.mpr ⟨c, hlink, connections_step (h.link fd c hlink) hconn⟩

theorem Server.nextConnection_step (s : Server) (e : Event) :
    s.nextConnection ≤ (s.step e).nextConnection := by
  rw [Server.step]
  cases e with
  | accept fd =>
    rw [Server.handle]
    split
    · exact le_rfl
    · exact Nat.le_succ _
  | request fd request =>
    rw [Server.handle]
    split
    · have hfresh := (Server.untouched_query (Nat.succ_ne_self fd).symm request
        { s with outbox := [] }).fresh
      rcases serve_cases fd request { s with outbox := [] } with heq | heq
      · rw [heq, hfresh]
      · rw [heq]
        exact hfresh.ge
    · exact le_rfl
  | disconnect c => exact le_rfl
  | hangUp fd =>
    rw [Server.handle]
    split <;> exact le_rfl

end Link

section Events

variable {w : Session} {fd : Fd} {request : Request}

theorem wakeSafe_iff (hlinked : w.linked = some fd) : wakeSafe w request = true ↔
    (∀ key ∈ request.wakesKey w.server, fd ∉ valuesAt w.server.waitingSockets key ∨
      (∀ g ∈ valuesAt w.server.waitingSockets key, w.server.alive g = true) ∧
      ((valuesAt w.server.waitingSockets key).count fd = w.server.keysAwaited fd →
        awaitsRegistered w = true)) ∧
      ∀ key ∈ request.updates w.server, fd ∉ w.server.watchedSockets key := by
  rw [wakeSafe, hlinked, Bool.and_eq_true, Option.all_eq_true, Option.all_eq_true]
  simp only [decide_eq_true_eq, Option.mem_def]

theorem wakesSafely_of_wakeSafe (hlinked : w.linked = some fd) (h : wakeSafe w request = true) :
    Server.WakesSafely w.server request fd :=
  fun key hkey => (((wakeSafe_iff hlinked).mp h).1 key hkey).imp id And.left

theorem awaits_of_releases (hlinked : w.linked = some fd) (h : wakeSafe w request = true)
    (hrel : Server.releases w.server request fd) : awaitsRegistered w = true := by
  obtain ⟨key, hkey, hin, hcount⟩ := hrel
  rcases ((wakeSafe_iff hlinked).mp h).1 key hkey with hout | ⟨_, hawaits⟩
  · exact absurd hin hout
  · exact hawaits hcount

theorem Server.closeSocket_other {t : Server} {g : Fd} (hne : fd ≠ g) :
    (t.closeSocket g).keysAwaited fd = t.keysAwaited fd ∧
      occurrences (t.closeSocket g).waitingSockets fd = occurrences t.waitingSockets fd :=
  ⟨update_of_ne hne _ _, occurrences_remove_of_ne _ _ hne⟩

theorem Consistent.step_other {e : Event} (h : Consistent w) (hlinked : w.linked = some fd)
    (hother : w.isOther e = true)
    (hsafe : ∀ g request, e = .request g request → wakeSafe w request = true) :
    ({ w with server := w.server.step e }.linked = some fd →
      (w.server.step e).keysAwaited fd = occurrences (w.server.step e).waitingSockets fd) ∧
    occurrences (w.server.step e).waitingSockets fd ≤ occurrences w.server.waitingSockets fd ∧
    (sentTo fd (w.server.step e).outbox = [] ∨
      sentTo fd (w.server.step e).outbox = [.stopWaiting] ∧ awaitsRegistered w = true ∧
        occurrences w.server.waitingSockets fd ≠ 0 ∧
        occurrences (w.server.step e).waitingSockets fd = 0) := by
  have hcounted := h.counted fd hlinked
  cases e with
  | accept g =>
    rw [Server.step, Server.handle]
    split
    · exact ⟨fun _ => hcounted, le_rfl, .inl rfl⟩
    · exact ⟨fun _ => hcounted, le_rfl, .inl rfl⟩
  | disconnect c => exact ⟨fun _ => hcounted, le_rfl, .inl rfl⟩
  | hangUp g =>
    rw [Server.step, Server.handle]
    split
    · by_cases hg : fd = g
      · subst hg
        refine ⟨fun hl => ?_, ?_, .inl rfl⟩
        · obtain ⟨c, _, hconn⟩ := linked_eq_some.mp hl
          exact absurd ((update_self fd _ _).symm.trans hconn) (by simp)
        · show occurrences (w.server.waitingSockets.remove fd) fd ≤ _
          rw [occurrences_remove_self]
          exact Nat.zero_le _
      · obtain ⟨hawaited, hoccurs⟩ := closeSocket_other
          (t := { w.server with outbox := [] }) hg
        rw [hawaited, hoccurs]
        exact ⟨fun _ => hcounted, le_rfl, .inl rfl⟩
    · exact ⟨fun _ => hcounted, le_rfl, .inl rfl⟩
  | request g request =>
    have hsafe' := hsafe g request rfl
    have hne : g ≠ fd := by
      rintro rfl
      rw [Session.isOther, hlinked] at hother
      simp at hother
    rw [Server.step, Server.handle]
    split
    · have haffects : Server.Affects { w.server with outbox := [] } g request fd
          (Server.result (Server.query g request { w.server with outbox := [] })) :=
        Server.affects_query (wakesSafely_of_wakeSafe hlinked hsafe')
          ((wakeSafe_iff hlinked).mp hsafe').2 hcounted (fun heq => absurd heq hne)
      obtain ⟨own, woken, heffect, hown, hwoken⟩ := haffects
      have hnone : own = [] := hown.resolve_right (fun hg => hne hg.1)
      have hsent := heffect.sent
      rw [hnone, append_nil] at hsent
      have hwoken' : woken = [] ∨ woken = [.stopWaiting] ∧ awaitsRegistered w = true ∧
          occurrences w.server.waitingSockets fd ≠ 0 ∧
          occurrences (Server.result (Server.query g request
            { w.server with outbox := [] })).waitingSockets fd = 0 := by
        refine hwoken.imp id (fun h =>
          ⟨h.1, awaits_of_releases hlinked hsafe' h.2.1, fun hnone => ?_, h.2.2⟩)
        obtain ⟨key, _, hin, _⟩ := h.2.1
        exact (occurrences_eq_zero _ _).mp hnone key hin
      have hsent' : sentTo fd (Server.result (Server.query g request
          { w.server with outbox := [] })).outbox = woken := hsent
      rw [← hsent'] at hwoken'
      rcases serve_cases g request { w.server with outbox := [] } with heq | heq
      · rw [heq]
        exact ⟨fun _ => heffect.counted, heffect.occurs, hwoken'⟩
      · rw [heq]
        obtain ⟨hawaited, hoccurs⟩ := closeSocket_other (t := Server.result
          (Server.query g request { w.server with outbox := [] })) hne.symm
        rw [hawaited, hoccurs]
        exact ⟨fun _ => heffect.counted, heffect.occurs, hwoken'⟩
    · exact ⟨fun _ => hcounted, le_rfl, .inl rfl⟩

theorem Consistent.withServer {s' : Server} (h : Consistent w) (hconfined : s'.Confined)
    (hfresh : w.server.nextConnection ≤ s'.nextConnection)
    (hlinked : ∀ fd, { w with server := s' }.linked = some fd → w.linked = some fd ∧
      s'.keysAwaited fd = occurrences s'.waitingSockets fd ∧
      occurrences s'.waitingSockets fd ≤ occurrences w.server.waitingSockets fd) :
    Consistent { w with server := s' } := by
  refine ⟨hconfined, fun fd c hl => (h.link fd c hl).trans_le hfresh,
    fun fd hl => (hlinked fd hl).2.1, h.unlinked, h.idle, h.queued, h.distinct, h.registered,
    h.future, fun id a hc => ?_⟩
  obtain ⟨hid, hunanswered | ⟨hout, hended, hmessage⟩⟩ := h.current id a hc
  · exact ⟨hid, .inl hunanswered⟩
  · refine ⟨hid, .inr ⟨hout, fun hreg fd hl => ?_, hmessage⟩⟩
    obtain ⟨hl', _, hle⟩ := hlinked fd hl
    exact Nat.le_zero.mp (hle.trans (hended hreg fd hl').le)

theorem awaitsRegistered_iff : awaitsRegistered w = true ↔
    ∃ id next, w.call = some (id, .stopWaiting next) ∧ w.registered = some id := by
  rw [awaitsRegistered]
  constructor
  · intro h
    split at h
    · rename_i id next reg hcall hreg
      rw [of_decide_eq_true h] at hcall
      exact ⟨reg, next, hcall, hreg⟩
    · cases h
  · rintro ⟨id, next, hcall, hreg⟩
    rw [hcall, hreg]
    exact decide_eq_true rfl

section Deliver

variable {current : Option (Nat × Request)} {e : Event}

theorem deliver_unlinked (hlinked : w.linked = none) :
    w.deliver current e = { w with server := w.server.step e } := by
  rw [Session.deliver, hlinked]
  rfl

theorem deliver_nil (hlinked : w.linked = some fd)
    (hnone : sentTo fd (w.server.step e).outbox = []) :
    w.deliver current e = { w with server := w.server.step e } := by
  simp only [Session.deliver, hlinked, hnone]
  rfl

theorem deliver_one {message : Message} (hlinked : w.linked = some fd)
    (hone : sentTo fd (w.server.step e).outbox = [message]) :
    w.deliver current e = Session.arrive (w.tagOf current message) message
      { w with server := w.server.step e } := by
  simp only [Session.deliver, hlinked, hone]
  rfl

theorem deliver_registered : (w.deliver current e).registered = w.registered := by
  have hfold : ∀ (messages : List Message) (v : Session), (messages.foldl (fun v message =>
      Session.arrive (w.tagOf current message) message v) v).registered = v.registered := by
    intro messages
    induction messages with
    | nil => exact fun v => rfl
    | cons message messages ih => exact fun v => ih _
  exact hfold _ _

end Deliver

/-- The one message that a call waits for arrives. -/
theorem Consistent.arrive {id : Nat} {a : Awaiting} {message : Message} (h : Consistent w)
    (hcall : w.call = some (id, a)) (hout : w.outgoing = []) (hincoming : w.incoming = [])
    (hresponses : w.responses id = []) (haccepts : a.accepts message = true)
    (hfits : message.fits = true)
    (hended : w.registered = some id → ∀ fd, w.linked = some fd →
      occurrences w.server.waitingSockets fd = 0) :
    Consistent (Session.arrive (some id) message w) := by
  have hid := (h.current id a hcall).1
  refine ⟨h.confined, h.link, h.counted, h.unlinked, fun hnone => ?_, fun p hp => ?_, h.distinct,
    h.registered, fun id' hid' => ?_, fun id' a' hc => ?_⟩
  · exact absurd (hcall.symm.trans hnone) (by simp)
  · have hp' : p ∈ w.outgoing := hp
    rw [hout] at hp'
    cases hp'
  · have hne : id' ≠ id := by
      rintro rfl
      exact absurd hid (Nat.not_lt.mpr hid')
    exact (update_of_ne hne _ _).trans (h.future id' hid')
  · have heq : (id', a') = (id, a) := Option.some.inj (hc.symm.trans hcall)
    cases heq
    refine ⟨hid, .inr ⟨hout, hended, message, haccepts, hfits, ?_, ?_⟩⟩
    · show update w.responses id (w.responses id ++ message.bytes) id = message.bytes
      rw [update_self, hresponses, nil_append]
    · show w.incoming ++ _ = _
      rw [hincoming, nil_append]

theorem Consistent.deliver_other {e : Event} (h : Consistent w) (hother : w.isOther e = true)
    (hsafe : ∀ g request, e = .request g request → wakeSafe w request = true) :
    Consistent (w.deliver none e) := by
  have hconfined := h.confined.step e
  have hfresh := nextConnection_step w.server e
  cases hlinked : w.linked with
  | none =>
    rw [deliver_unlinked hlinked]
    refine h.withServer hconfined hfresh (fun fd hl => ?_)
    have hl' := h.linked_step rfl hl
    rw [hlinked] at hl'
    cases hl'
  | some fd =>
    obtain ⟨hcounted, hle, hmessages⟩ := h.step_other hlinked hother hsafe
    have hsame : ∀ fd', { w with server := w.server.step e }.linked = some fd' → fd' = fd :=
      fun fd' hl => Option.some.inj ((h.linked_step rfl hl).symm.trans hlinked)
    have hserver : Consistent { w with server := w.server.step e } := by
      refine h.withServer hconfined hfresh (fun fd' hl => ?_)
      obtain rfl := hsame fd' hl
      exact ⟨hlinked, hcounted hl, hle⟩
    rcases hmessages with hnone | ⟨hstop, hawaits, hbefore, hafter⟩
    · rw [deliver_nil hlinked hnone]
      exact hserver
    · rw [deliver_one hlinked hstop]
      obtain ⟨id, next, hcall, hreg⟩ := awaitsRegistered_iff.mp hawaits
      have htag : w.tagOf none .stopWaiting = some id := hreg
      rw [htag]
      obtain ⟨_, ⟨hincoming, hresponses, hout⟩ | hanswered⟩ := h.current id _ hcall
      · have hnothing : w.outgoing = [] := by
          refine hout.resolve_right ?_
          rintro ⟨front, request, heq, _⟩
          have hin : (id, request) ∈ w.outgoing := by
            rw [heq]
            exact mem_append_right _ mem_cons_self
          exact (h.queued _ hin).2.2 hreg
        refine hserver.arrive hcall hnothing hincoming hresponses rfl rfl (fun _ fd' hl => ?_)
        obtain rfl := hsame fd' hl
        exact hafter
      · exact absurd (hanswered.2.1 hreg fd hlinked) hbefore

end Events

section Serve

variable {w : Session} {fd : Fd} {id : Nat} {request : Request} {rest : List (Nat × Request)}
  {a : Awaiting}

theorem accepts_of_reads {s : Server} {message : Message}
    (hreads : a.reads request = true) (hanswer : message ∈ request.answer s) :
    a.accepts message = true := by
  cases request with
  | set key data => cases hanswer
  | wait keys =>
    rw [Request.answer] at hanswer
    split at hanswer
    · cases hanswer
      cases a <;> first | rfl | cases hreads
    · cases hanswer
  | compareSet key currentValue newValue =>
    rw [Request.answer] at hanswer
    cases hlookup : s.tcpStore.lookup key with
    | none =>
      rw [hlookup] at hanswer
      cases hanswer
      cases a <;> first | rfl | cases hreads
    | some value =>
      rw [hlookup] at hanswer
      cases hanswer
      cases a <;> first | rfl | cases hreads
  | get key =>
    obtain ⟨data, _, rfl⟩ := map_eq_some_iff.mp hanswer
    cases a <;> first | rfl | cases hreads
  | add key addVal =>
    rw [Request.answer] at hanswer
    cases hlookup : s.tcpStore.lookup key with
    | none =>
      rw [hlookup] at hanswer
      cases hanswer
      cases a <;> first | rfl | cases hreads
    | some value =>
      rw [hlookup] at hanswer
      obtain ⟨old, _, rfl⟩ := map_eq_some_iff.mp hanswer
      cases a <;> first | rfl | cases hreads
  | check keys => cases hanswer; cases a <;> first | rfl | cases hreads
  | getNumKeys => cases hanswer; cases a <;> first | rfl | cases hreads
  | watchKey key => cases a <;> cases hreads
  | deleteKey key => cases hanswer; cases a <;> first | rfl | cases hreads

theorem tagOf_accepted {message : Message} (haccepts : a.accepts message = true)
    (hwait : ∀ keys, request ≠ .wait keys) (hreads : a.reads request = true) :
    w.tagOf (some (id, request)) message = some id := by
  cases message with
  | stopWaiting =>
    cases a with
    | stopWaiting next =>
      cases request <;> first | exact absurd rfl (hwait _) | cases hreads
    | _ => cases haccepts
  | update _ _ _ _ => cases a <;> cases haccepts
  | checked _ => rfl
  | number _ => rfl
  | vector _ => rfl
  | callbackRegistered => rfl

/-- A request in the queue is that of the current call. -/
theorem Consistent.current_of_queue (h : Consistent w) (hout : w.outgoing = (id, request) :: rest)
    {id' : Nat} (hcall : w.call = some (id', a)) :
    w.incoming = [] ∧ w.responses id' = [] ∧ w.registered ≠ some id' ∧
      (id' = id ∧ rest = [] ∧ a.reads request = true ∨
        id' ≠ id ∧ ∃ front last, rest = front ++ [(id', last)] ∧ a.reads last = true) := by
  obtain ⟨_, ⟨hincoming, hresponses, hqueue⟩ | ⟨hempty, _⟩⟩ := h.current id' a hcall
  · obtain ⟨front, last, heq, hreads⟩ := hqueue.resolve_left (by rw [hout]; simp)
    have hin : (id', last) ∈ w.outgoing := by
      rw [heq]
      exact mem_append_right _ mem_cons_self
    refine ⟨hincoming, hresponses, (h.queued _ hin).2.2, ?_⟩
    rw [hout] at heq
    cases front with
    | nil =>
      cases heq
      exact .inl ⟨rfl, rfl, hreads⟩
    | cons p front =>
      cases heq
      refine .inr ⟨?_, front, last, rfl, hreads⟩
      have hdistinct := h.distinct
      rw [hout, map_cons, nodup_cons] at hdistinct
      rintro rfl
      exact hdistinct.1 (mem_map.mpr ⟨(id', last), mem_append_right _ mem_cons_self, rfl⟩)
  · rw [hout] at hempty
    cases hempty

theorem Consistent.dequeue (h : Consistent w) (hout : w.outgoing = (id, request) :: rest) :
    Consistent { w with outgoing := rest } := by
  have hsub : ∀ p ∈ rest, p ∈ w.outgoing := fun p hp => hout ▸ mem_cons_of_mem _ hp
  have hdistinct := h.distinct
  rw [hout, map_cons, nodup_cons] at hdistinct
  refine ⟨h.confined, h.link, h.counted, fun hl => ?_, h.idle, fun p hp => h.queued p (hsub p hp),
    hdistinct.2, h.registered, h.future, fun id' a hc => ⟨(h.current id' a hc).1, .inl ?_⟩⟩
  · obtain ⟨hempty, _⟩ := h.unlinked hl
    rw [hout] at hempty
    cases hempty
  · obtain ⟨hincoming, hresponses, _, hlast⟩ := h.current_of_queue hout hc
    refine ⟨hincoming, hresponses, ?_⟩
    rcases hlast with ⟨_, hempty, _⟩ | ⟨_, front, last, heq, hreads⟩
    · exact .inl hempty
    · exact .inr ⟨front, last, heq, hreads⟩

theorem step_linked (hlinked : w.linked = some fd) (request : Request) :
    w.server.step (.request fd request) =
        Server.result (Server.query fd request { w.server with outbox := [] }) ∨
      w.server.step (.request fd request) =
        (Server.result
          (Server.query fd request { w.server with outbox := [] })).closeSocket fd := by
  obtain ⟨c, _, hconn⟩ := linked_eq_some.mp hlinked
  rw [Server.step, Server.handle, if_pos (by rw [hconn]; rfl)]
  exact serve_cases fd request _

theorem sentTo_step {s' t : Server} {messages : List Message}
    (ht : s' = t ∨ s' = t.closeSocket fd) (hsent : sentTo fd t.outbox = messages) :
    sentTo fd s'.outbox = messages := by
  rcases ht with heq | heq
  · rw [heq]
    exact hsent
  · rw [heq]
    exact hsent

variable (h : Consistent w) (hlinked : w.linked = some fd)
include h hlinked

theorem Consistent.afterRequest {t : Server}
    (ht : w.server.step (.request fd request) = t ∨
      w.server.step (.request fd request) = t.closeSocket fd)
    (hcounted : t.keysAwaited fd = occurrences t.waitingSockets fd)
    (hle : occurrences t.waitingSockets fd ≤ occurrences w.server.waitingSockets fd) :
    Consistent { w with server := w.server.step (.request fd request) } := by
  refine h.withServer (h.confined.step _) (nextConnection_step _ _) (fun fd' hl => ?_)
  have hl' := h.linked_step rfl hl
  obtain rfl : fd' = fd := Option.some.inj (hl'.symm.trans hlinked)
  refine ⟨hlinked, ?_⟩
  rcases ht with heq | heq
  · rw [heq]
    exact ⟨hcounted, hle⟩
  · obtain ⟨c, _, hconn⟩ := linked_eq_some.mp hl
    have hclosed : (w.server.step (.request fd' request)).connections fd' = none := by
      rw [heq]
      exact update_self _ _ _
    exact absurd (hclosed.symm.trans hconn) (by simp)

theorem Consistent.serve_request
    (hout : w.outgoing = (id, request) :: rest) (hwait : ∀ keys, request ≠ .wait keys)
    (hsafe : wakeSafe w request = true)
    (hanswer : ∀ message ∈ request.answer w.server,
      message.fits = true ∧ w.call.map Prod.fst = some id) :
    Consistent (Session.deliver (some (id, request)) (.request fd request)
      { w with outgoing := rest }) := by
  have haffects : Server.Affects { w.server with outbox := [] } fd request fd
      (Server.result (Server.query fd request { w.server with outbox := [] })) :=
    Server.affects_query (wakesSafely_of_wakeSafe hlinked hsafe)
      ((wakeSafe_iff hlinked).mp hsafe).2 (h.counted fd hlinked) (fun _ => hwait)
  obtain ⟨own, woken, heffect, hown, hwoken⟩ := haffects
  -- The client is not in a wait that the server counts, since it sent a request after it.
  have hquiet : woken = [] := by
    refine hwoken.resolve_right ?_
    rintro ⟨_, hrel, _⟩
    obtain ⟨id', next, hcall, hreg⟩ :=
      awaitsRegistered_iff.mp (awaits_of_releases hlinked hsafe hrel)
    exact (h.current_of_queue hout hcall).2.2.1 hreg
  have hstep := step_linked hlinked request
  have hserver := (h.dequeue hout).afterRequest hlinked hstep heffect.counted heffect.occurs
  have hsent : sentTo fd (w.server.step (.request fd request)).outbox = own := by
    refine sentTo_step hstep ?_
    have hsent := heffect.sent
    rw [hquiet, append_nil] at hsent
    exact hsent
  rcases hown with hnone | ⟨_, message, hmessage, hone⟩
  · rw [hnone] at hsent
    rw [deliver_nil (w := { w with outgoing := rest }) hlinked hsent]
    exact hserver
  · rw [hone] at hsent
    rw [deliver_one (w := { w with outgoing := rest }) hlinked hsent]
    obtain ⟨hfits, howner⟩ := hanswer message hmessage
    obtain ⟨⟨id', a⟩, hcall, rfl⟩ := map_eq_some_iff.mp howner
    obtain ⟨hincoming, hresponses, hreg, hlast⟩ := h.current_of_queue hout hcall
    obtain ⟨_, hrest, hreads⟩ := hlast.resolve_right (fun hne => hne.1 rfl)
    have haccepts := accepts_of_reads hreads hmessage
    rw [tagOf_accepted haccepts hwait hreads]
    exact hserver.arrive hcall hrest hincoming hresponses haccepts hfits
      (fun hreg' => absurd hreg' hreg)

theorem Consistent.serve_wait_now {keys : List Key} (hout : w.outgoing = (id, .wait keys) :: rest)
    (hcheck : w.server.checkKeys keys = true) (hcurrent : w.call.map Prod.fst = some id) :
    Consistent (Session.deliver (some (id, .wait keys)) (.request fd (.wait keys))
      { w with outgoing := rest }) := by
  have hquery : Server.query fd (.wait keys) { w.server with outbox := [] } =
      Server.send fd .stopWaiting { w.server with outbox := [] } := if_pos hcheck
  have hstep := step_linked hlinked (.wait keys)
  rw [hquery] at hstep
  obtain ⟨own, heffect, hown⟩ := Server.effectAt_send (s := { w.server with outbox := [] }) fd fd
    .stopWaiting (h.counted fd hlinked)
  have hserver := (h.dequeue hout).afterRequest hlinked hstep heffect.counted heffect.occurs
  have hsent : sentTo fd (w.server.step (.request fd (.wait keys))).outbox = own := by
    refine sentTo_step hstep ?_
    have hsent := heffect.sent
    rw [append_nil] at hsent
    exact hsent
  rcases hown with hnone | ⟨_, hone⟩
  · rw [hnone] at hsent
    rw [deliver_nil (w := { w with outgoing := rest }) hlinked hsent]
    exact hserver
  · rw [hone] at hsent
    rw [deliver_one (w := { w with outgoing := rest }) hlinked hsent]
    obtain ⟨⟨id', a⟩, hcall, rfl⟩ := map_eq_some_iff.mp hcurrent
    obtain ⟨hincoming, hresponses, hreg, hlast⟩ := h.current_of_queue hout hcall
    obtain ⟨_, hrest, hreads⟩ := hlast.resolve_right (fun hne => hne.1 rfl)
    have htag : Session.tagOf { w with outgoing := rest } (some (id', .wait keys)) .stopWaiting =
        some id' := if_pos hcheck
    rw [htag]
    refine hserver.arrive hcall hrest hincoming hresponses ?_ rfl (fun hreg' => absurd hreg' hreg)
    cases a <;> first | rfl | cases hreads

theorem Consistent.serve_wait_later {keys : List Key} (hout : w.outgoing = (id, .wait keys) :: rest)
    (hcheck : w.server.checkKeys keys = false)
    (hidle : occurrences w.server.waitingSockets fd = 0)
    (hfew : (w.server.missing keys).length < 2 ^ 31) :
    Consistent { Session.deliver (some (id, .wait keys)) (.request fd (.wait keys))
      { w with outgoing := rest } with registered := some id } := by
  obtain ⟨c, _, hconn⟩ := linked_eq_some.mp hlinked
  have hstep : w.server.step (.request fd (.wait keys)) = { w.server with
      outbox := []
      waitingSockets := (w.server.missing keys).foldl (fun m key => m.push key fd)
        w.server.waitingSockets
      keysAwaited := update w.server.keysAwaited fd
        (intToSize (w.server.missing keys).length) } := by
    have hquery : Server.query fd (.wait keys) { w.server with outbox := [] } = .ok { w.server with
        outbox := []
        waitingSockets := (w.server.missing keys).foldl (fun m key => m.push key fd)
          w.server.waitingSockets
        keysAwaited := update w.server.keysAwaited fd
          (intToSize (w.server.missing keys).length) } :=
      if_neg (by
        intro hall
        exact absurd (hcheck.symm.trans hall) Bool.false_ne_true)
    rw [Server.step, Server.handle, if_pos (by rw [hconn]; rfl), Server.serve, hquery]
  have hsent : sentTo fd (w.server.step (.request fd (.wait keys))).outbox = [] := by
    rw [hstep]
    rfl
  have hqueue := h.dequeue hout
  obtain ⟨hlt, _, _⟩ := h.queued _ (hout ▸ mem_cons_self)
  have hdistinct := h.distinct
  rw [hout, map_cons, nodup_cons] at hdistinct
  rw [deliver_nil (w := { w with outgoing := rest }) hlinked hsent]
  refine ⟨h.confined.step (.request fd (.wait keys)),
    fun fd' c' hl => ?_, fun fd' hl => ?_, hqueue.unlinked, h.idle,
    fun p hp => ?_, hdistinct.2, fun id' hreg => ?_, h.future, fun id' a hc => ?_⟩
  · exact (h.link fd' c' hl).trans_le (nextConnection_step _ _)
  · have hl' : w.linked = some fd' := h.linked_step rfl hl
    obtain rfl : fd' = fd := Option.some.inj (hl'.symm.trans hlinked)
    rw [hstep]
    show update w.server.keysAwaited fd' _ fd' = occurrences (List.foldl _ _ _) fd'
    rw [occurrences_foldl_push, update_self, if_pos rfl, hidle, Nat.zero_add, intToSize_eq hfew]
  · obtain ⟨hlt', hresponses, _⟩ := hqueue.queued p hp
    refine ⟨hlt', hresponses, fun heq => hdistinct.1 ?_⟩
    rw [Option.some.inj heq]
    exact mem_map.mpr ⟨p, hp, rfl⟩
  · cases hreg
    exact hlt
  · have hc' : w.call = some (id', a) := hc
    obtain ⟨hincoming, hresponses, _, hlast⟩ := h.current_of_queue hout hc'
    refine ⟨(h.current id' a hc').1, .inl ⟨hincoming, hresponses, ?_⟩⟩
    rcases hlast with ⟨_, hempty, _⟩ | ⟨_, front, last, heq, hreads⟩
    · exact .inl hempty
    · exact .inr ⟨front, last, heq, hreads⟩

end Serve

section Steps

variable {w : Session}
section

variable (h : Consistent w)
include h

/-- A new connection is consistent. -/
theorem Consistent.connect (fd : Fd) : Consistent (w.connect fd) := by
  rw [Session.connect]
  split
  · rename_i hfree
    obtain ⟨hlink, hconn⟩ := hfree
    have hstep : w.server.step (.accept fd) = { w.server with
        outbox := []
        connections := update w.server.connections fd (some w.server.nextConnection)
        connected := update w.server.connected w.server.nextConnection true
        nextConnection := w.server.nextConnection + 1 } := by
      simp only [Server.step, Server.handle, hconn]
    obtain ⟨hout, hcall⟩ := h.unlinked hlink
    refine ⟨h.confined.step (.accept fd), fun fd' c hl => ?_, fun fd' hl => ?_, fun hl => ?_,
      h.idle, h.queued, h.distinct, h.registered, h.future, fun id a hc => ?_⟩
    · cases hl
      rw [hstep]
      exact Nat.lt_succ_self _
    · obtain ⟨c, hl', _⟩ := linked_eq_some.mp hl
      cases hl'
      obtain ⟨hzero, hawaited⟩ := h.confined.closed fd hconn
      rw [hstep]
      exact hawaited.trans hzero.symm
    · cases hl
    · exact absurd (hcall.symm.trans hc) (by simp)
  · exact h

theorem Consistent.send {request : Request} {awaiting : Option Awaiting}
    (hlink : w.link.isSome) (hcall : w.call = none)
    (hreads : ∀ a, awaiting = some a → a.reads request = true) :
    Consistent (w.send request awaiting) := by
  have hincoming := h.idle hcall
  have hold : ∀ p ∈ w.outgoing, p.1 ≠ w.sent := fun p hp => ((h.queued p hp).1).ne
  have hcurrent : ∀ id a, (w.send request awaiting).call = some (id, a) →
      id = w.sent ∧ awaiting = some a := by
    intro id a hc
    obtain ⟨a', ha', heq⟩ := map_eq_some_iff.mp hc
    cases heq
    exact ⟨rfl, ha'⟩
  refine ⟨h.confined, h.link, h.counted, fun hl => ?_, fun _ => hincoming, fun p hp => ?_, ?_,
    fun id hreg => ?_, fun id hid => h.future id (Nat.le_of_succ_le hid), fun id a hc => ?_⟩
  · have hl' : w.link = none := hl
    rw [hl'] at hlink
    cases hlink
  · rcases mem_append.mp hp with hp | hp
    · obtain ⟨hlt, hresponses, hreg⟩ := h.queued p hp
      exact ⟨hlt.trans (Nat.lt_succ_self _), hresponses, hreg⟩
    · obtain rfl := mem_singleton.mp hp
      refine ⟨Nat.lt_succ_self _, h.future _ le_rfl, fun hreg => ?_⟩
      exact absurd (h.registered _ hreg) (lt_irrefl _)
  · show ((w.outgoing ++ [(w.sent, request)]).map Prod.fst).Nodup
    rw [map_append, nodup_append]
    refine ⟨h.distinct, nodup_singleton _, fun k hk k' hk' => ?_⟩
    obtain ⟨p, hp, rfl⟩ := mem_map.mp hk
    rw [mem_singleton.mp hk']
    exact hold p hp
  · exact (h.registered id hreg).trans (Nat.lt_succ_self _)
  · obtain ⟨rfl, ha⟩ := hcurrent id a hc
    exact ⟨Nat.lt_succ_self _, .inl ⟨hincoming, h.future _ le_rfl,
      .inr ⟨w.outgoing, request, rfl, hreads a ha⟩⟩⟩

theorem Consistent.read_answered {id : Nat} {a : Awaiting} (k : Nat) (hcall : w.call = some (id, a))
    (hk : a.responseLength (w.incoming.map Prod.snd) = some k) :
    k = w.incoming.length ∧ w.incoming = (w.responses id).map (fun b => (some id, b)) := by
  obtain ⟨_, ⟨hincoming, _, _⟩ | ⟨_, _, message, haccepts, hfits, hresponses, hincoming⟩⟩ :=
    h.current id a hcall
  · rw [hincoming, List.map_nil, responseLength_nil] at hk
    cases hk
  · have hbytes : w.incoming.map Prod.snd = message.bytes := by
      rw [hincoming, List.map_map]
      exact List.map_id _
    rw [hbytes, Message.responseLength_bytes haccepts hfits, Option.some_inj] at hk
    refine ⟨?_, hincoming.trans (by rw [hresponses])⟩
    rw [← hk, ← hbytes, List.length_map]

/-- The client has read its response. -/
theorem Consistent.finish : Consistent { w with incoming := [], call := none } := by
  refine ⟨h.confined, h.link, h.counted, fun hl => ⟨(h.unlinked hl).1, rfl⟩, fun _ => rfl,
    h.queued, h.distinct, h.registered, h.future, fun id a hc => ?_⟩
  cases hc

/-- Reading one byte keeps the world consistent. -/
theorem Consistent.read : Consistent w.read := by
  rw [Session.read]
  cases hcall : w.call with
  | none => exact h
  | some p =>
    obtain ⟨id, a⟩ := p
    cases hk : a.responseLength (w.incoming.map Prod.snd) with
    | none =>
      simp only [hk]
      exact h
    | some k =>
      simp only [hk]
      obtain ⟨hlength, _⟩ := h.read_answered k hcall hk
      have hdrop : w.incoming.drop k = [] := by
        rw [hlength]
        exact drop_length
      have hfinish := h.finish
      have hlink : w.link.isSome := by
        cases hl : w.link with
        | none => exact absurd (hcall.symm.trans (h.unlinked hl).2) (by simp)
        | some l => rfl
      rw [hdrop]
      cases a with
      | stopWaiting next =>
        cases next with
        | none => exact hfinish
        | some key =>
          show Consistent (if _ then _ else _)
          split
          · exact hfinish.send hlink rfl (fun a ha => by cases ha; rfl)
          · exact hfinish
      | checked => exact hfinish
      | number => exact hfinish
      | vector => exact hfinish

theorem Consistent.giveUp (hok : matchable w .timeout = true) : Consistent w.giveUp := by
  rw [Session.giveUp]
  split
  · have hincoming : w.incoming = [] := (of_decide_eq_true hok).elim h.idle id
    have hfinish := h.finish
    rw [← hincoming] at hfinish
    exact hfinish
  · exact h

/-- Serving one request keeps the world consistent. -/
theorem Consistent.serveNext (hok : matchable w .serve = true) : Consistent w.serveNext := by
  rw [Session.serveNext]
  split
  · rename_i fd id request rest hlinked hout
    simp only [matchable, hlinked, hout, Bool.and_eq_true, Option.all_eq_true,
      decide_eq_true_eq] at hok
    -- A request that is not counted leaves the wait that is.
    have hkept : ∀ v : Session, v.registered = w.registered →
        w.register id request = w.registered → Consistent v →
        Consistent { v with registered := w.register id request } := by
      intro v hsame hreg hv
      rw [hreg, ← hsame]
      exact hv
    obtain ⟨hanswer, hsafe⟩ := hok
    by_cases hwait : ∃ keys, request = .wait keys
    · obtain ⟨keys, rfl⟩ := hwait
      cases hcheck : w.server.checkKeys keys with
      | true =>
        have howner := (hanswer .stopWaiting (if_pos hcheck)).2
        exact hkept _ deliver_registered (if_pos hcheck)
          (h.serve_wait_now hlinked hout hcheck howner)
      | false =>
        simp only [hcheck, Bool.false_or, decide_eq_true_eq] at hsafe
        have hreg : w.register id (.wait keys) = some id := if_neg (by rw [hcheck]; simp)
        rw [hreg]
        exact h.serve_wait_later hlinked hout hcheck hsafe.1 hsafe.2
    · refine hkept _ deliver_registered ?_
        (h.serve_request hlinked hout (fun keys heq => hwait ⟨keys, heq⟩) ?_ hanswer)
      · cases request <;> first | rfl | exact absurd ⟨_, rfl⟩ hwait
      · cases request <;> first | exact hsafe | exact absurd ⟨_, rfl⟩ hwait
  · exact h

theorem consistent_next {a : Action} (hok : matchable w a = true) : Consistent (w.next a) := by
  cases a with
  | connect fd => exact h.connect fd
  | call c =>
    rw [Session.next]
    split
    · rename_i hfree
      refine h.send hfree.1 hfree.2 (fun a ha => ?_)
      cases c <;> cases ha <;> rfl
    · exact h
  | serve => exact h.serveNext hok
  | receive => exact h.read
  | timeout => exact h.giveUp hok
  | other e =>
    rw [Session.next]
    split
    · rename_i hother
      refine h.deliver_other hother (fun g request heq => ?_)
      subst heq
      rcases of_decide_eq_true hok with hlinked | hsafe
      · rw [Session.isOther, hlinked] at hother
        simp at hother
      · exact hsafe
    · exact h

end

end Steps

section Runs

/-- In every run whose actions all meet `matchable`, every call reads its own response. -/
theorem responses_matched (actions : List Action)
    (hok : connection.Admissible (fun w a => matchable w a = true) connection.init actions) :
    connection.Admissible Matched connection.init actions := by
  refine connection.admissible_of_invariant _ Matched Consistent (fun w a h hm => ?_) actions
    connection.init consistent_initial hok
  refine ⟨consistent_next h hm, ?_⟩
  cases a with
  | receive =>
    intro id a k hcall hk
    obtain ⟨hlength, hincoming⟩ := h.read_answered k hcall hk
    rw [hlength, take_length]
    exact hincoming
  | _ => trivial

/-- The client waits for a key in vain, and gets another one that is set while it waits. -/
def patientClient : List Action :=
  [.other (.accept 5), .connect 4, .call (.wait [[97]]), .serve, .timeout,
    .call (.check [[98]]), .serve, .receive, .other (.request 5 (.check [[97]])),
    .call (.add [98] 3), .serve, .receive, .call (.get [98]), .serve, .receive, .serve, .receive]

/-- A client that waits for every response. -/
theorem responses_matched_patientClient : connection.Admissible Matched connection.init
    patientClient :=
  responses_matched patientClient (by decide +kernel)

/-- The client gives up a wait for `a`, which another client sets then, and checks `b`. -/
def lateAnswer : List Action :=
  [.other (.accept 5), .connect 4, .call (.wait [[97]]), .serve, .timeout,
    .other (.request 5 (.set [97] [1])), .call (.check [[98]]), .serve]

/-- A byte for a wait that gave up, read by `check`: the key is missing and the call returns
that it is there. -/
theorem late_answer_misread :
    ¬ ∀ actions, connection.Admissible Matched connection.init actions := by
  intro h
  have hread := (connection.admissible_append Matched connection.init lateAnswer [.receive]).mp
    (h (lateAnswer ++ [.receive]))
  have htaken := hread.2.1 1 .checked 1 (by decide +kernel) (by decide +kernel)
  exact absurd htaken (by decide +kernel)

end Runs

end PyTorchCore.TcpStore
