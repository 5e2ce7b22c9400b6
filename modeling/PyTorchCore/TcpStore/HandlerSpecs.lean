import PyTorchCore.TcpStore.Server

/-!
# What the handlers send

A handler that throws leaves a state behind, so its effect is stated for `result`, the
state with or without an exception.
-/

namespace PyTorchCore.TcpStore

open Lib
open Function List

namespace Server

/-- The state that a handler leaves, with or without an exception. -/
def result : Except Server Server → Server
  | .ok s => s
  | .error s => s

@[simp] theorem result_ok (s : Server) : result (.ok s) = s := rfl

@[simp] theorem result_error (s : Server) : result (.error s) = s := rfl

/-- The sockets that got `STOP_WAITING`. -/
def stops (outbox : List Delivery) : List Fd :=
  (outbox.filter (fun d => d.message = .stopWaiting)).map Delivery.fd

/-- The wake-ups among messages sent one after the other. -/
theorem stops_append (ds es : List Delivery) : stops (ds ++ es) = stops ds ++ stops es := by
  rw [stops, filter_append, map_append]
  rfl

theorem stops_eq_nil {ds : List Delivery} (h : ∀ d ∈ ds, d.message ≠ .stopWaiting) :
    stops ds = [] := by
  rw [stops, map_eq_nil_iff, filter_eq_nil_iff]
  intro d hd
  simpa using h d hd

/-- A state with more in the outbox, which all went to clients that are there. -/
def Sends (P : Delivery → Prop) (s t : Server) : Prop :=
  ∃ extra, t = { s with outbox := s.outbox ++ extra } ∧
    ∀ d ∈ extra, P d ∧ s.connections d.fd = some d.connection ∧ s.connected d.connection = true

section Sends

variable {P Q : Delivery → Prop} {s t u : Server}

theorem Sends.refl (P : Delivery → Prop) (s : Server) : Sends P s s :=
  ⟨[], by rw [append_nil], fun _ hd => absurd hd not_mem_nil⟩

theorem Sends.trans (h : Sends P s t) (h' : Sends P t u) : Sends P s u := by
  obtain ⟨extra, rfl, hextra⟩ := h
  obtain ⟨extra', rfl, hextra'⟩ := h'
  refine ⟨extra ++ extra', by rw [← append_assoc], fun d hd => ?_⟩
  rcases mem_append.mp hd with hd | hd
  · exact hextra d hd
  · exact hextra' d hd

theorem Sends.mono (h : Sends P s t) (himp : ∀ d, P d → Q d) : Sends Q s t := by
  obtain ⟨extra, rfl, hextra⟩ := h
  exact ⟨extra, rfl, fun d hd => ⟨himp d (hextra d hd).1, (hextra d hd).2⟩⟩

/-- Other messages stop no wait. -/
theorem Sends.stops (h : Sends (fun d => d.message ≠ .stopWaiting) s t) :
    stops t.outbox = stops s.outbox := by
  obtain ⟨extra, rfl, hextra⟩ := h
  rw [stops_append, stops_eq_nil (fun d hd => (hextra d hd).1), append_nil]

end Sends

section Send

variable {fd : Fd} {message : Message} {s : Server}

/-- A socket is alive if its client is still there. -/
theorem alive_iff : s.alive fd = true ↔ ∃ c, s.connections fd = some c ∧ s.connected c = true := by
  rw [alive]
  cases s.connections fd with
  | none => simp
  | some c => simp

/-- A send to a client that is there. -/
theorem send_eq {c : Nat} (hopen : s.connections fd = some c) (hthere : s.connected c = true)
    (message : Message) :
    send fd message s = .ok { s with outbox := s.outbox ++ [⟨fd, c, message⟩] } := by
  rw [send, hopen]
  exact if_pos hthere

theorem send_dead (h : s.alive fd = false) (message : Message) : send fd message s = .error s := by
  rw [send]
  rw [alive] at h
  cases hopen : s.connections fd with
  | none => rfl
  | some c =>
    rw [hopen] at h
    exact if_neg (by simp [h])

/-- What a send does, whether or not it throws. -/
theorem result_send (fd : Fd) (message : Message) (s : Server) :
    Sends (fun d => d.fd = fd ∧ d.message = message) s (result (send fd message s)) := by
  cases halive : s.alive fd with
  | false =>
    rw [send_dead halive]
    exact Sends.refl _ s
  | true =>
    obtain ⟨c, hopen, hthere⟩ := alive_iff.mp halive
    rw [send_eq hopen hthere]
    refine ⟨[⟨fd, c, message⟩], rfl, fun d hd => ?_⟩
    rw [mem_singleton.mp hd]
    exact ⟨⟨rfl, rfl⟩, hopen, hthere⟩

theorem result_sendAll (message : Message) (fds : List Fd) (s : Server) :
    Sends (fun d => d.fd ∈ fds ∧ d.message = message) s (result (sendAll message fds s)) := by
  induction fds generalizing s with
  | nil => exact Sends.refl _ s
  | cons fd fds ih =>
    have hfirst := (result_send fd message s).mono
      (Q := fun d => d.fd ∈ fd :: fds ∧ d.message = message)
      (fun d hd => ⟨hd.1 ▸ mem_cons_self, hd.2⟩)
    rw [sendAll]
    cases hsend : send fd message s with
    | error t =>
      rw [hsend] at hfirst
      exact hfirst
    | ok t =>
      rw [hsend] at hfirst
      exact hfirst.trans ((ih t).mono (fun d hd => ⟨mem_cons_of_mem _ hd.1, hd.2⟩))

end Send

section Cases

variable {fd : Fd} {key : Key} {s : Server} {data : Bytes}

theorem compareSetHandler_none (h : s.tcpStore.lookup key = none) (currentValue newValue : Bytes) :
    compareSetHandler fd key currentValue newValue s =
      if currentValue = [] then
        (sendKeyUpdatesToClients key .keyCreated currentValue newValue (store key newValue s)).bind
          (send fd (.vector newValue))
      else send fd (.vector currentValue) s := by
  rw [compareSetHandler, h]

theorem compareSetHandler_some (h : s.tcpStore.lookup key = some data)
    (currentValue newValue : Bytes) :
    compareSetHandler fd key currentValue newValue s =
      if data = currentValue then
        (sendKeyUpdatesToClients key .keyUpdated currentValue newValue (store key newValue s)).bind
          (send fd (.vector newValue))
      else send fd (.vector data) s := by
  rw [compareSetHandler, h]

theorem addHandler_none (h : s.tcpStore.lookup key = none) (addVal : Int) :
    addHandler fd key addVal s = storeSum fd key addVal s := by
  rw [addHandler, h]

theorem addHandler_throws (h : s.tcpStore.lookup key = some data) (hdata : stoll data = none)
    (addVal : Int) : addHandler fd key addVal s = .error s := by
  simp only [addHandler, h, hdata]

theorem addHandler_some {old : Int} (h : s.tcpStore.lookup key = some data)
    (hdata : stoll data = some old) (addVal : Int) :
    addHandler fd key addVal s = storeSum fd key (addInt64 addVal old) s := by
  simp only [addHandler, h, hdata]

theorem getHandler_none (h : s.tcpStore.lookup key = none) : getHandler fd key s = .error s := by
  rw [getHandler, h]

theorem getHandler_some (h : s.tcpStore.lookup key = some data) :
    getHandler fd key s = send fd (.vector data) s := by
  rw [getHandler, h]

theorem deleteHandler_none (h : s.tcpStore.lookup key = none) :
    deleteHandler fd key s = send fd (.number 0) s := by
  rw [deleteHandler, h]

theorem deleteHandler_some (h : s.tcpStore.lookup key = some data) :
    deleteHandler fd key s = (sendKeyUpdatesToClients key .keyDeleted data [] s).bind (fun s =>
      send fd (.number 1) { s with tcpStore := s.tcpStore.erase key }) := by
  rw [deleteHandler, h]

end Cases

section WakeUp

/-- The sockets in `fds` have all their keys counted there. -/
def ReleasedAlive (s : Server) (fds : List Fd) : Prop :=
  ∀ g ∈ fds, fds.count g = s.keysAwaited g → s.alive g = true

/-- The loop of `wakeupWaitingClients`, if no counter goes below zero and the clients that
are woken are there. -/
theorem wakeupSockets_eq (fds : List Fd) (s : Server)
    (hcount : ∀ g, fds.count g ≤ s.keysAwaited g) (halive : ReleasedAlive s fds) :
    ∃ extra, wakeupSockets fds s = .ok { s with
        keysAwaited := fun g => s.keysAwaited g - fds.count g
        outbox := s.outbox ++ extra } ∧
      (∀ d ∈ extra, d.message = .stopWaiting ∧ d.fd ∈ fds ∧
        s.connections d.fd = some d.connection ∧ s.connected d.connection = true) ∧
      ∀ g, (stops extra).count g = if g ∈ fds ∧ fds.count g = s.keysAwaited g then 1 else 0 := by
  induction fds generalizing s with
  | nil =>
    refine ⟨[], ?_, fun _ hd => absurd hd not_mem_nil, fun g => ?_⟩
    · simp [wakeupSockets]
    · simp [stops]
  | cons fd fds ih =>
    have hpos : 0 < s.keysAwaited fd := by
      have hle := hcount fd
      rw [count_cons_self] at hle
      omega
    have hdec : decrement (s.keysAwaited fd) = s.keysAwaited fd - 1 := if_neg hpos.ne'
    -- What is left for the rest of the list.
    have hcount' : ∀ g, fds.count g ≤
        update s.keysAwaited fd (s.keysAwaited fd - 1) g := by
      intro g
      have hle := hcount g
      by_cases hg : g = fd
      · subst hg
        rw [count_cons_self] at hle
        rw [update_self]
        omega
      · rw [count_cons_of_ne (fun heq => hg heq.symm)] at hle
        rwa [update_of_ne hg]
    have halive' : ∀ g ∈ fds, fds.count g =
        update s.keysAwaited fd (s.keysAwaited fd - 1) g → s.alive g = true := by
      intro g hg heq
      refine halive g (mem_cons_of_mem _ hg) ?_
      by_cases hne : g = fd
      · subst hne
        rw [update_self] at heq
        rw [count_cons_self]
        omega
      · rw [update_of_ne hne] at heq
        rwa [count_cons_of_ne (fun h => hne h.symm)]
    have hleft : (fun g => update s.keysAwaited fd (s.keysAwaited fd - 1) g -
        fds.count g) = fun g => s.keysAwaited g - (fd :: fds).count g := by
      funext g
      by_cases hg : g = fd
      · subst hg
        rw [update_self, count_cons_self]
        omega
      · rw [update_of_ne hg, count_cons_of_ne (fun h => hg h.symm)]
    by_cases hzero : s.keysAwaited fd - 1 = 0
    · obtain ⟨c, hopen, hthere⟩ := alive_iff.mp (halive fd mem_cons_self (by
        have hle := hcount fd
        rw [count_cons_self] at hle ⊢
        omega))
      obtain ⟨extra, hrun, hextra, hstops⟩ := ih { s with
          keysAwaited := update s.keysAwaited fd (s.keysAwaited fd - 1)
          outbox := s.outbox ++ [⟨fd, c, .stopWaiting⟩] } hcount' halive'
      refine ⟨⟨fd, c, .stopWaiting⟩ :: extra, ?_, fun d hd => ?_, fun g => ?_⟩
      · have hsend : send fd .stopWaiting { s with
            keysAwaited := update s.keysAwaited fd (s.keysAwaited fd - 1) } =
              .ok { s with
                keysAwaited := update s.keysAwaited fd (s.keysAwaited fd - 1)
                outbox := s.outbox ++ [⟨fd, c, .stopWaiting⟩] } :=
          send_eq (s := { s with
            keysAwaited := update s.keysAwaited fd (s.keysAwaited fd - 1) })
            hopen hthere _
        rw [wakeupSockets, hdec, if_pos hzero, hsend]
        refine hrun.trans ?_
        simp only [hleft, append_assoc, singleton_append]
      · rcases mem_cons.mp hd with rfl | hd
        · exact ⟨rfl, mem_cons_self, hopen, hthere⟩
        · obtain ⟨hmessage, hin, hd⟩ := hextra d hd
          exact ⟨hmessage, mem_cons_of_mem _ hin, hd⟩
      · have hcons : stops (⟨fd, c, .stopWaiting⟩ :: extra) = fd :: stops extra := rfl
        rw [hcons]
        by_cases hg : g = fd
        · subst hg
          have hout : g ∉ fds := by
            have hle := hcount g
            rw [count_cons_self] at hle
            exact count_eq_zero.mp (by omega)
          have hone : (g :: fds).count g = s.keysAwaited g := by
            rw [count_cons_self, count_eq_zero.mpr hout]
            omega
          rw [count_cons_self, hstops g, if_neg (fun h => hout h.1),
            if_pos ⟨mem_cons_self, hone⟩]
        · rw [count_cons_of_ne (fun h => hg h.symm), hstops g]
          simp only [update_of_ne hg, mem_cons, hg, false_or,
            count_cons_of_ne (fun h => hg h.symm)]
    · obtain ⟨extra, hrun, hextra, hstops⟩ := ih { s with
          keysAwaited := update s.keysAwaited fd (s.keysAwaited fd - 1) } hcount' halive'
      refine ⟨extra, ?_, fun d hd => ?_, fun g => ?_⟩
      · rw [wakeupSockets, hdec, if_neg hzero]
        refine hrun.trans ?_
        simp only [hleft]
      · obtain ⟨hmessage, hin, hd⟩ := hextra d hd
        exact ⟨hmessage, mem_cons_of_mem _ hin, hd⟩
      · rw [hstops g]
        by_cases hg : g = fd
        · subst hg
          simp only [update_self, mem_cons, true_or, true_and, count_cons_self]
          by_cases hin : g ∈ fds
          · simp only [hin, true_and]
            congr 1
            simp only [eq_iff_iff]
            omega
          · rw [if_neg (fun h => hin h.1), if_neg]
            rw [count_eq_zero.mpr hin]
            omega
        · simp only [update_of_ne hg, mem_cons, hg, false_or,
            count_cons_of_ne (fun h => hg h.symm)]

end WakeUp

end Server

end PyTorchCore.TcpStore
