import PyTorchCore.TcpStore.Client

/-!
# One socket of the server

What the requests of all clients do to one socket: which messages it gets, and how many
keys it waits for.
-/

namespace PyTorchCore.TcpStore

open Lib Request
open Function List
open Lib.Multimap

def Request.wakesKey (s : Server) : Request → Option Key
  | .set key _ => some key
  | .add key addVal => if (Request.add key addVal).valid s then some key else none
  | _ => none

namespace Server

/-- A state that differs at most in the counters, the outbox and the watchers, and not in
what belongs to one socket. -/
structure SameAt (g : Fd) (s t : Server) : Prop where
  awaited : t.keysAwaited g = s.keysAwaited g
  occurs : occurrences t.waitingSockets g = occurrences s.waitingSockets g
  sent : sentTo g t.outbox = sentTo g s.outbox
  connections : t.connections = s.connections
  connected : t.connected = s.connected
  fresh : t.nextConnection = s.nextConnection

section Socket

variable {s t u : Server} {g fd : Fd} {key : Key}

theorem SameAt.trans (h : SameAt g s t) (h' : SameAt g t u) : SameAt g s u :=
  ⟨h'.awaited.trans h.awaited, h'.occurs.trans h.occurs, h'.sent.trans h.sent,
    h'.connections.trans h.connections, h'.connected.trans h.connected, h'.fresh.trans h.fresh⟩

theorem SameAt.refl (g : Fd) (s : Server) : SameAt g s s :=
  ⟨rfl, rfl, rfl, rfl, rfl, rfl⟩

/-- Storing a value does nothing to a socket. -/
theorem sameAt_store (g : Fd) (key : Key) (newData : Bytes) (s : Server) :
    SameAt g s (store key newData s) :=
  ⟨rfl, rfl, rfl, rfl, rfl, rfl⟩

theorem sentTo_append (g : Fd) (ds es : List Delivery) :
    sentTo g (ds ++ es) = sentTo g ds ++ sentTo g es := by
  rw [sentTo, filter_append, map_append]
  rfl

theorem sentTo_eq_nil {g : Fd} {ds : List Delivery} (h : ∀ d ∈ ds, d.fd ≠ g) :
    sentTo g ds = [] := by
  rw [sentTo, map_eq_nil_iff, filter_eq_nil_iff]
  intro d hd
  simpa using h d hd

theorem Sends.sameAt (h : Sends (fun d => d.fd ≠ g) s t) : SameAt g s t := by
  obtain ⟨extra, rfl, hextra⟩ := h
  refine ⟨rfl, rfl, ?_, rfl, rfl, rfl⟩
  rw [sentTo_append, sentTo_eq_nil (fun d hd => (hextra d hd).1), append_nil]

/-- Sending to one socket does nothing to another. -/
theorem sameAt_send (hne : fd ≠ g) (message : Message) (s : Server) :
    SameAt g s (result (send fd message s)) :=
  ((result_send fd message s).mono (fun _ hd => hd.1 ▸ hne)).sameAt

/-- A change does nothing to a socket that does not watch the key. -/
theorem sameAt_updates (hout : g ∉ s.watchedSockets key) (type : Change) (oldData newData : Bytes) :
    SameAt g s (result (sendKeyUpdatesToClients key type oldData newData s)) :=
  ((result_sendAll _ _ s).mono (Q := fun d => d.fd ≠ g) (fun _ hd heq => hout (heq ▸ hd.1))).sameAt

theorem wakeupSockets_frame (fds : List Fd) (s : Server) :
    ∃ awaited outbox, result (wakeupSockets fds s) =
        { s with keysAwaited := awaited, outbox := outbox } ∧
      ∀ g ∉ fds, awaited g = s.keysAwaited g ∧ sentTo g outbox = sentTo g s.outbox := by
  induction fds generalizing s with
  | nil => exact ⟨s.keysAwaited, s.outbox, rfl, fun _ _ => ⟨rfl, rfl⟩⟩
  | cons fd fds ih =>
    rw [wakeupSockets]
    have hfirst : ∃ outbox, result (if decrement (s.keysAwaited fd) = 0 then
          send fd .stopWaiting { s with
            keysAwaited := update s.keysAwaited fd (decrement (s.keysAwaited fd)) }
        else .ok { s with
            keysAwaited := update s.keysAwaited fd (decrement (s.keysAwaited fd)) }) =
        { s with
          keysAwaited := update s.keysAwaited fd (decrement (s.keysAwaited fd))
          outbox := outbox } ∧ ∀ g, g ≠ fd → sentTo g outbox = sentTo g s.outbox := by
      split
      · obtain ⟨extra, heq, hextra⟩ := result_send fd .stopWaiting { s with
            keysAwaited := update s.keysAwaited fd (decrement (s.keysAwaited fd)) }
        refine ⟨s.outbox ++ extra, heq, fun g hg => ?_⟩
        rw [sentTo_append, sentTo_eq_nil (g := g) (fun d hd heq => hg (heq ▸ (hextra d hd).1.1)),
          append_nil]
      · exact ⟨s.outbox, rfl, fun _ _ => rfl⟩
    obtain ⟨outbox, heq, hsent⟩ := hfirst
    generalize hx : (if decrement (s.keysAwaited fd) = 0 then
          send fd .stopWaiting { s with
            keysAwaited := update s.keysAwaited fd (decrement (s.keysAwaited fd)) }
        else .ok { s with
            keysAwaited :=
              update s.keysAwaited fd (decrement (s.keysAwaited fd)) }) = x at heq ⊢
    cases x with
    | error t =>
      refine ⟨_, outbox, heq, fun g hg => ⟨?_, hsent g (ne_of_not_mem_cons hg)⟩⟩
      exact update_of_ne (ne_of_not_mem_cons hg) _ _
    | ok t =>
      obtain ⟨awaited, outbox', heq', hothers⟩ := ih t
      rw [result_ok] at heq
      refine ⟨awaited, outbox', ?_, fun g hg => ?_⟩
      · refine heq'.trans ?_
        rw [heq]
      · obtain ⟨hawaited, hsent'⟩ := hothers g (not_mem_of_not_mem_cons hg)
        rw [heq] at hawaited hsent'
        refine ⟨hawaited.trans ?_, hsent'.trans (hsent g (ne_of_not_mem_cons hg))⟩
        exact update_of_ne (ne_of_not_mem_cons hg) _ _

theorem sameAt_wakeup (hout : g ∉ valuesAt s.waitingSockets key) :
    SameAt g s (result (wakeupWaitingClients key s)) ∧
      (result (wakeupWaitingClients key s)).watchedSockets = s.watchedSockets := by
  rw [wakeupWaitingClients]
  cases hlookup : s.waitingSockets.lookup key with
  | none => exact ⟨SameAt.refl g s, rfl⟩
  | some fds =>
    have hvalues : valuesAt s.waitingSockets key = fds := by
      rw [valuesAt, hlookup]
      rfl
    obtain ⟨awaited, outbox, heq, hothers⟩ := wakeupSockets_frame fds s
    obtain ⟨hawaited, hsent⟩ := hothers g (hvalues ▸ hout)
    cases hrun : wakeupSockets fds s with
    | error t =>
      rw [hrun, result_error] at heq
      simp only [hrun, Except.map, result_error, heq]
      exact ⟨⟨hawaited, rfl, hsent, rfl, rfl, rfl⟩, trivial⟩
    | ok t =>
      rw [hrun, result_ok] at heq
      simp only [hrun, Except.map, result_ok, heq]
      refine ⟨⟨hawaited, ?_, hsent, rfl, rfl, rfl⟩, trivial⟩
      have hsplit := occurrences_erase s.waitingSockets key g
      rw [count_eq_zero.mpr hout, Nat.zero_add] at hsplit
      exact hsplit.symm

theorem wakeupSockets_at (fds : List Fd) (s : Server) (g : Fd)
    (halive : ∀ f ∈ fds, s.alive f = true) (hcount : fds.count g ≤ s.keysAwaited g) :
    ∃ awaited outbox, wakeupSockets fds s =
        .ok { s with keysAwaited := awaited, outbox := outbox } ∧
      awaited g = s.keysAwaited g - fds.count g ∧
      sentTo g outbox = sentTo g s.outbox ++
        if g ∈ fds ∧ fds.count g = s.keysAwaited g then [.stopWaiting] else [] := by
  induction fds generalizing s with
  | nil =>
    refine ⟨s.keysAwaited, s.outbox, rfl, by simp, ?_⟩
    rw [if_neg (fun h => absurd h.1 not_mem_nil), append_nil]
  | cons fd fds ih =>
    obtain ⟨c, hopen, hthere⟩ := alive_iff.mp (halive fd mem_cons_self)
    have halive' : ∀ f ∈ fds, s.alive f = true :=
      fun f hf => halive f (mem_cons_of_mem _ hf)
    -- The state after the first socket.
    have hfirst : ∃ outbox, (if decrement (s.keysAwaited fd) = 0 then
          send fd .stopWaiting { s with
            keysAwaited := update s.keysAwaited fd (decrement (s.keysAwaited fd)) }
        else .ok { s with
            keysAwaited := update s.keysAwaited fd (decrement (s.keysAwaited fd)) }) =
        .ok { s with
          keysAwaited := update s.keysAwaited fd (decrement (s.keysAwaited fd))
          outbox := outbox } ∧
        sentTo g outbox = sentTo g s.outbox ++
          if fd = g ∧ decrement (s.keysAwaited fd) = 0 then [.stopWaiting] else [] := by
      split
      · rename_i hzero
        refine ⟨s.outbox ++ [⟨fd, c, .stopWaiting⟩], send_eq (s := { s with
          keysAwaited := update s.keysAwaited fd (decrement (s.keysAwaited fd)) })
          hopen hthere _, ?_⟩
        rw [sentTo_append]
        congr 1
        by_cases hg : fd = g
        · rw [if_pos ⟨hg, hzero⟩]
          simp [sentTo, hg]
        · rw [if_neg (fun h => hg h.1)]
          simp [sentTo, hg]
      · rename_i hzero
        refine ⟨s.outbox, rfl, ?_⟩
        rw [if_neg (fun h => hzero h.2), append_nil]
    obtain ⟨outbox, hrun, hsent⟩ := hfirst
    have hnext := ih { s with
      keysAwaited := update s.keysAwaited fd (decrement (s.keysAwaited fd))
      outbox := outbox } halive'
    by_cases hg : fd = g
    · subst hg
      rw [count_cons_self] at hcount ⊢
      have hdec : decrement (s.keysAwaited fd) = s.keysAwaited fd - 1 := if_neg (by omega)
      simp only [hdec] at hrun hsent
      simp only [hdec, update_self] at hnext
      obtain ⟨awaited, outbox', hrest, hawaited, hsent'⟩ := hnext (by omega)
      clear hnext ih
      refine ⟨awaited, outbox', ?_, by omega, ?_⟩
      · rw [wakeupSockets, hdec, hrun]
        exact hrest
      · rw [hsent', hsent, append_assoc]
        congr 1
        by_cases hin : fd ∈ fds
        · have hpos : 0 < fds.count fd := count_pos_iff.mpr hin
          simp only [hin, true_and, mem_cons, true_or]
          rw [if_neg (by omega), nil_append]
          congr 1
          simp only [eq_iff_iff]
          omega
        · have hzero : fds.count fd = 0 := count_eq_zero.mpr hin
          simp only [hin, false_and, if_false, append_nil, mem_cons, true_or, true_and, hzero]
          congr 1
          simp only [eq_iff_iff]
          omega
    · have hne : g ≠ fd := fun heq => hg heq.symm
      rw [count_cons_of_ne (fun heq => hne heq.symm)] at hcount ⊢
      simp only [update_of_ne hne] at hnext
      obtain ⟨awaited, outbox', hrest, hawaited, hsent'⟩ := hnext hcount
      refine ⟨awaited, outbox', ?_, hawaited, ?_⟩
      · rw [wakeupSockets, hrun]
        exact hrest
      · rw [hsent', hsent, if_neg (fun h => hg h.1), append_nil]
        simp only [mem_cons, hne, false_or]

theorem at_wakeup (hcounted : s.keysAwaited g = occurrences s.waitingSockets g)
    (halive : ∀ f ∈ valuesAt s.waitingSockets key, s.alive f = true) :
    ∃ t, wakeupWaitingClients key s = .ok t ∧ t.keysAwaited g = occurrences t.waitingSockets g ∧
      occurrences t.waitingSockets g =
        occurrences s.waitingSockets g - (valuesAt s.waitingSockets key).count g ∧
      sentTo g t.outbox = sentTo g s.outbox ++ (if g ∈ valuesAt s.waitingSockets key ∧
          (valuesAt s.waitingSockets key).count g = s.keysAwaited g then [.stopWaiting] else []) ∧
      t.connections = s.connections ∧ t.connected = s.connected ∧
      t.nextConnection = s.nextConnection ∧ t.watchedSockets = s.watchedSockets := by
  have hsplit := occurrences_erase s.waitingSockets key g
  rw [wakeupWaitingClients]
  cases hlookup : s.waitingSockets.lookup key with
  | none =>
    have hvalues : valuesAt s.waitingSockets key = [] := by
      rw [valuesAt, hlookup]
      rfl
    refine ⟨s, rfl, hcounted, ?_, ?_, rfl, rfl, rfl, rfl⟩
    · rw [hvalues, count_nil, Nat.sub_zero]
    · rw [hvalues, if_neg (fun h => absurd h.1 not_mem_nil), append_nil]
  | some fds =>
    have hvalues : valuesAt s.waitingSockets key = fds := by
      rw [valuesAt, hlookup]
      rfl
    rw [hvalues] at halive hsplit ⊢
    obtain ⟨awaited, outbox, hrun, hawaited, hsent⟩ := wakeupSockets_at fds s g halive (by omega)
    simp only [hrun, Except.map]
    refine ⟨_, rfl, ?_, ?_, hsent, rfl, rfl, rfl, rfl⟩
    · show awaited g = occurrences (s.waitingSockets.erase key) g
      omega
    · show occurrences (s.waitingSockets.erase key) g = _
      omega

end Socket

/-- A socket is woken by a request. -/
def releases (s : Server) (request : Request) (g : Fd) : Prop :=
  ∃ key ∈ request.wakesKey s, g ∈ valuesAt s.waitingSockets key ∧
    (valuesAt s.waitingSockets key).count g = s.keysAwaited g

/-- What happens to one socket: it may get its own response and, if it is woken,
`STOP_WAITING`. -/
structure EffectAt (g : Fd) (s t : Server) (own woken : List Message) : Prop where
  counted : t.keysAwaited g = occurrences t.waitingSockets g
  occurs : occurrences t.waitingSockets g ≤ occurrences s.waitingSockets g
  sent : sentTo g t.outbox = sentTo g s.outbox ++ own ++ woken
  connections : t.connections = s.connections
  connected : t.connected = s.connected
  fresh : t.nextConnection = s.nextConnection

section Effects

variable {s t u : Server} {g fd : Fd} {key : Key} {request : Request} {own woken : List Message}

theorem SameAt.effect (h : SameAt g s t)
    (hcounted : s.keysAwaited g = occurrences s.waitingSockets g) : EffectAt g s t [] [] := by
  refine ⟨?_, h.occurs.le, ?_, h.connections, h.connected, h.fresh⟩
  · rw [h.awaited, h.occurs, hcounted]
  · rw [append_nil, append_nil]
    exact h.sent

theorem EffectAt.trans_same (h : EffectAt g s t own woken) (h' : SameAt g t u) :
    EffectAt g s u own woken := by
  refine ⟨?_, ?_, h'.sent.trans h.sent, h'.connections.trans h.connections,
    h'.connected.trans h.connected, h'.fresh.trans h.fresh⟩
  · rw [h'.awaited, h'.occurs, h.counted]
  · rw [h'.occurs]
    exact h.occurs

theorem SameAt.trans_effect (h : SameAt g s t) (h' : EffectAt g t u own woken) :
    EffectAt g s u own woken := by
  refine ⟨h'.counted, ?_, ?_, h'.connections.trans h.connections,
    h'.connected.trans h.connected, h'.fresh.trans h.fresh⟩
  · rw [← h.occurs]
    exact h'.occurs
  · rw [h'.sent, h.sent]

theorem effectAt_send (g fd : Fd) (message : Message)
    (hcounted : s.keysAwaited g = occurrences s.waitingSockets g) :
    ∃ own, EffectAt g s (result (send fd message s)) own [] ∧
      (own = [] ∨ fd = g ∧ own = [message]) := by
  by_cases hg : fd = g
  · subst hg
    cases halive : s.alive fd with
    | false =>
      rw [send_dead halive]
      exact ⟨[], (SameAt.refl fd s).effect hcounted, .inl rfl⟩
    | true =>
      obtain ⟨c, hopen, hthere⟩ := alive_iff.mp halive
      rw [send_eq hopen hthere]
      refine ⟨[message], ⟨hcounted, le_rfl, ?_, rfl, rfl, rfl⟩, .inr ⟨rfl, rfl⟩⟩
      rw [result_ok, sentTo_append, append_nil]
      simp [sentTo]
  · exact ⟨[], (sameAt_send hg message s).effect hcounted, .inl rfl⟩

theorem effectAt_wakeup (hkey : key ∈ request.wakesKey s)
    (hcounted : u.keysAwaited g = occurrences u.waitingSockets g)
    (hwaiting : u.waitingSockets = s.waitingSockets) (hawaited : u.keysAwaited = s.keysAwaited)
    (hsafe : g ∉ valuesAt s.waitingSockets key ∨
      ∀ f ∈ valuesAt s.waitingSockets key, u.alive f = true) :
    ∃ woken, EffectAt g u (result (wakeupWaitingClients key u)) [] woken ∧
      (result (wakeupWaitingClients key u)).watchedSockets = u.watchedSockets ∧
      (woken = [] ∨ woken = [.stopWaiting] ∧ releases s request g ∧
        occurrences (result (wakeupWaitingClients key u)).waitingSockets g = 0) := by
  rw [← hwaiting] at hsafe
  rcases hsafe with hout | halive
  · obtain ⟨hsame, hwatched⟩ := sameAt_wakeup hout
    exact ⟨[], hsame.effect hcounted, hwatched, .inl rfl⟩
  · obtain ⟨t, hrun, hcounted', hoccurs, hsent, hconnections, hconnected, hfresh, hwatched⟩ :=
      at_wakeup hcounted halive
    rw [hrun, result_ok]
    by_cases hrel : g ∈ valuesAt u.waitingSockets key ∧
        (valuesAt u.waitingSockets key).count g = u.keysAwaited g
    · rw [if_pos hrel] at hsent
      refine ⟨[.stopWaiting], ⟨hcounted', by omega, by rw [hsent, append_nil], hconnections,
        hconnected, hfresh⟩, hwatched, .inr ⟨rfl, ⟨key, hkey, ?_⟩, ?_⟩⟩
      · rw [← hwaiting, ← hawaited]
        exact hrel
      · rw [hoccurs, hrel.2, hcounted, Nat.sub_self]
    · rw [if_neg hrel] at hsent
      exact ⟨[], ⟨hcounted', by omega, by simp [hsent], hconnections, hconnected, hfresh⟩,
        hwatched, .inl rfl⟩

/-- Who of the clients that wait for a key are there. -/
def WakesSafely (s : Server) (request : Request) (g : Fd) : Prop :=
  ∀ key ∈ request.wakesKey s, g ∉ valuesAt s.waitingSockets key ∨
    ∀ f ∈ valuesAt s.waitingSockets key, s.alive f = true

/-- What a request does to one socket: the messages are its response, if it made the
request, and `STOP_WAITING`, if it is woken. -/
def Affects (s : Server) (fd : Fd) (request : Request) (g : Fd) (t : Server) : Prop :=
  ∃ own woken, EffectAt g s t own woken ∧
    (own = [] ∨ fd = g ∧ ∃ message ∈ request.answer s, own = [message]) ∧
    (woken = [] ∨ woken = [.stopWaiting] ∧ releases s request g ∧
      occurrences t.waitingSockets g = 0)

theorem affects_same (h : SameAt g s t)
    (hcounted : s.keysAwaited g = occurrences s.waitingSockets g) : Affects s fd request g t :=
  ⟨[], [], h.effect hcounted, .inl rfl, .inl rfl⟩

theorem affects_respond {message : Message} (hsame : SameAt g s u)
    (hcounted : s.keysAwaited g = occurrences s.waitingSockets g)
    (hanswer : request.answer s = some message) :
    Affects s fd request g (result (send fd message u)) := by
  obtain ⟨own, heffect, hown⟩ := effectAt_send (s := u) g fd message (by
    rw [hsame.awaited, hsame.occurs, hcounted])
  refine ⟨own, [], hsame.trans_effect heffect, hown.imp id (fun h => ⟨h.1, message, hanswer, h.2⟩),
    .inl rfl⟩

section

variable (hsafe : WakesSafely s request g)
  (hquiet : ∀ k ∈ request.updates s, g ∉ s.watchedSockets k)
include hsafe hquiet

theorem affects_wakeup (hkey : key ∈ request.wakesKey s) (hupdates : key ∈ request.updates s)
    (hstart : EffectAt g s u own []) (hwaiting : u.waitingSockets = s.waitingSockets)
    (hawaited : u.keysAwaited = s.keysAwaited) (hwatched : u.watchedSockets = s.watchedSockets)
    (hown : own = [] ∨ fd = g ∧ ∃ message ∈ request.answer s, own = [message]) (type : Change)
    (oldData newData : Bytes) :
    Affects s fd request g (result ((wakeupWaitingClients key u).bind
      (sendKeyUpdatesToClients key type oldData newData))) := by
  obtain ⟨woken, heffect, hsame, hwoken⟩ := effectAt_wakeup hkey hstart.counted hwaiting hawaited
    ((hsafe key hkey).imp id (fun h f hf => by
      rw [alive_congr hstart.connections hstart.connected]
      exact h f hf))
  have hcompose : ∀ v, result (wakeupWaitingClients key u) = v → EffectAt g s v own woken := by
    rintro v rfl
    refine ⟨heffect.counted, heffect.occurs.trans hstart.occurs, ?_,
      heffect.connections.trans hstart.connections, heffect.connected.trans hstart.connected,
      heffect.fresh.trans hstart.fresh⟩
    rw [heffect.sent, hstart.sent, append_nil, append_nil]
  cases hrun : wakeupWaitingClients key u with
  | error v =>
    rw [hrun] at hwoken hcompose
    exact ⟨own, woken, hcompose v rfl, hown, hwoken⟩
  | ok v =>
    rw [hrun] at hwoken hcompose hsame
    have hout : g ∉ v.watchedSockets key := by
      rw [show v.watchedSockets = _ from hsame, hwatched]
      exact hquiet key hupdates
    have htold := sameAt_updates hout type oldData newData
    refine ⟨own, woken, (hcompose v rfl).trans_same htold, hown, hwoken.imp id ?_⟩
    rintro ⟨hstop, hrel, hzero⟩
    exact ⟨hstop, hrel, htold.occurs.trans hzero⟩

theorem affects_storeSum {sum : Int} (hkey : key ∈ request.wakesKey s)
    (hupdates : key ∈ request.updates s) (hanswer : request.answer s = some (.number sum))
    (hcounted : s.keysAwaited g = occurrences s.waitingSockets g) :
    Affects s fd request g (result (storeSum fd key sum s)) := by
  rw [storeSum_eq]
  obtain ⟨own, heffect, hown⟩ := effectAt_send (s := store key (toDecimal sum) s) g fd
    (.number sum) hcounted
  have hstart := (sameAt_store g key (toDecimal sum) s).trans_effect heffect
  have hown' : own = [] ∨ fd = g ∧ ∃ message ∈ request.answer s, own = [message] :=
    hown.imp id (fun h => ⟨h.1, _, hanswer, h.2⟩)
  cases hsend : send fd (.number sum) (store key (toDecimal sum) s) with
  | error u =>
    rw [hsend] at hstart
    exact ⟨own, [], hstart, hown', .inl rfl⟩
  | ok u =>
    rw [hsend] at hstart
    obtain ⟨hawaited, hwaiting, hwatched, _, _⟩ := send_frame hsend
    exact affects_wakeup hsafe hquiet hkey hupdates hstart hwaiting hawaited hwatched hown' _ _ _

theorem affects_query (hcounted : s.keysAwaited g = occurrences s.waitingSockets g)
    (hown : fd = g → ∀ keys, request ≠ .wait keys) :
    Affects s fd request g (result (query fd request s)) := by
  cases request with
  | set key newData =>
    exact affects_wakeup (u := store key newData s) hsafe hquiet rfl rfl
      ((sameAt_store g key newData s).effect hcounted) rfl rfl rfl (.inl rfl) _ _ _
  | compareSet key currentValue newValue =>
    have hwrite : key ∈ (Request.compareSet key currentValue newValue).updates s →
        (Request.compareSet key currentValue newValue).answer s = some (.vector newValue) →
        ∀ type, Affects s fd (.compareSet key currentValue newValue) g
          (result ((sendKeyUpdatesToClients key type currentValue newValue
            (store key newValue s)).bind (send fd (.vector newValue)))) := by
      intro hkey hanswer type
      have hsame := (sameAt_store g key newValue s).trans
        (sameAt_updates (s := store key newValue s) (hquiet key hkey) type currentValue newValue)
      cases hrun : sendKeyUpdatesToClients key type currentValue newValue
          (store key newValue s) with
      | error u =>
        rw [hrun] at hsame
        exact affects_same hsame hcounted
      | ok u =>
        rw [hrun] at hsame
        exact affects_respond hsame hcounted hanswer
    rw [query]
    cases hlookup : s.tcpStore.lookup key with
    | none =>
      rw [compareSetHandler_none hlookup]
      by_cases hempty : currentValue = []
      · rw [if_pos hempty]
        exact hwrite (by simp [updates, hlookup, hempty])
          (by simp [answer, hlookup, hempty]) _
      · rw [if_neg hempty]
        exact affects_respond (SameAt.refl g s) hcounted (by simp [answer, hlookup, hempty])
    | some value =>
      rw [compareSetHandler_some hlookup]
      by_cases hsame : value = currentValue
      · rw [if_pos hsame]
        exact hwrite (by simp [updates, hlookup, hsame])
          (by simp [answer, hlookup, hsame]) _
      · rw [if_neg hsame]
        exact affects_respond (SameAt.refl g s) hcounted (by simp [answer, hlookup, hsame])
  | get key =>
    rw [query]
    cases hlookup : s.tcpStore.lookup key with
    | none =>
      rw [getHandler_none hlookup]
      exact affects_same (SameAt.refl g s) hcounted
    | some data =>
      rw [getHandler_some hlookup]
      exact affects_respond (SameAt.refl g s) hcounted (by simp [answer, hlookup])
  | add key addVal =>
    rw [query]
    cases hlookup : s.tcpStore.lookup key with
    | none =>
      rw [addHandler_none hlookup]
      have hvalid : (Request.add key addVal).valid s = true := by
        simp [valid, hlookup]
      exact affects_storeSum hsafe hquiet (by simp [wakesKey, hvalid])
        (by simp [updates, hvalid]) (by simp [answer, hlookup]) hcounted
    | some value =>
      cases hold : stoll value with
      | none =>
        rw [addHandler_throws hlookup hold]
        exact affects_same (SameAt.refl g s) hcounted
      | some old =>
        rw [addHandler_some hlookup hold]
        have hvalid : (Request.add key addVal).valid s = true := by
          simp [valid, hlookup, hold]
        exact affects_storeSum hsafe hquiet (by simp [wakesKey, hvalid])
          (by simp [updates, hvalid]) (by simp [answer, hlookup, hold]) hcounted
  | check keys => exact affects_respond (SameAt.refl g s) hcounted rfl
  | wait keys =>
    have hne : fd ≠ g := fun heq => hown heq keys rfl
    rw [query, waitHandler]
    split
    · exact affects_same (sameAt_send hne .stopWaiting s) hcounted
    · refine affects_same ⟨?_, ?_, rfl, rfl, rfl, rfl⟩ hcounted
      · exact update_of_ne hne.symm _ _
      · show occurrences (List.foldl _ _ _) g = _
        rw [occurrences_foldl_push, if_neg hne, Nat.add_zero]
  | getNumKeys => exact affects_respond (SameAt.refl g s) hcounted rfl
  | watchKey key =>
    have hsame : SameAt g s { s with
        watchedSockets := update s.watchedSockets key (s.watchedSockets key ++ [fd]) } :=
      ⟨rfl, rfl, rfl, rfl, rfl, rfl⟩
    exact affects_respond hsame hcounted rfl
  | deleteKey key =>
    rw [query]
    cases hlookup : s.tcpStore.lookup key with
    | none =>
      have hout : key ∉ s.tcpStore := AList.lookup_eq_none.mp hlookup
      rw [deleteHandler_none hlookup]
      exact affects_respond (SameAt.refl g s) hcounted (by simp [answer, hout])
    | some data =>
      have hin : key ∈ s.tcpStore := AList.lookup_isSome.mp (by rw [hlookup]; rfl)
      rw [deleteHandler_some hlookup]
      have hsame := sameAt_updates (hquiet key (by simp [updates, hin])) .keyDeleted data []
      cases hrun : sendKeyUpdatesToClients key .keyDeleted data [] s with
      | error u =>
        rw [hrun] at hsame
        exact affects_same hsame hcounted
      | ok u =>
        rw [hrun] at hsame
        have herase : SameAt g u { u with tcpStore := u.tcpStore.erase key } :=
          ⟨rfl, rfl, rfl, rfl, rfl, rfl⟩
        exact affects_respond (hsame.trans herase) hcounted (by simp [answer, hin])

end

end Effects

/-- A state in which a socket that waits for nothing is left alone, and the connections are
as before. -/
structure Untouched (g : Fd) (s t : Server) : Prop where
  occurs : occurrences s.waitingSockets g = 0 →
    occurrences t.waitingSockets g = 0 ∧ t.keysAwaited g = s.keysAwaited g
  connections : t.connections = s.connections
  connected : t.connected = s.connected
  fresh : t.nextConnection = s.nextConnection

section Untouched

variable {s t u : Server} {g fd : Fd} {key : Key} {request : Request}

theorem Untouched.trans (h : Untouched g s t) (h' : Untouched g t u) : Untouched g s u := by
  refine ⟨fun hzero => ?_, h'.connections.trans h.connections, h'.connected.trans h.connected,
    h'.fresh.trans h.fresh⟩
  obtain ⟨hzero', hawaited⟩ := h.occurs hzero
  exact ⟨(h'.occurs hzero').1, (h'.occurs hzero').2.trans hawaited⟩

theorem untouched_of_eq (hwaiting : t.waitingSockets = s.waitingSockets)
    (hawaited : t.keysAwaited = s.keysAwaited) (hconnections : t.connections = s.connections)
    (hconnected : t.connected = s.connected) (hfresh : t.nextConnection = s.nextConnection) :
    Untouched g s t :=
  ⟨fun hzero => ⟨by rw [hwaiting, hzero], by rw [hawaited]⟩, hconnections, hconnected, hfresh⟩

/-- Sends leave the tables alone. -/
theorem Sends.untouched {P : Delivery → Prop} (h : Sends P s t) : Untouched g s t := by
  obtain ⟨extra, rfl, _⟩ := h
  exact untouched_of_eq rfl rfl rfl rfl rfl

theorem untouched_bind {x : Except Server Server} {f : Server → Except Server Server}
    (hx : Untouched g s (result x)) (hf : ∀ t, Untouched g t (result (f t))) :
    Untouched g s (result (x.bind f)) := by
  cases x with
  | error t => exact hx
  | ok t => exact hx.trans (hf t)

theorem untouched_updates (key : Key) (type : Change) (oldData newData : Bytes) (s : Server) :
    Untouched g s (result (sendKeyUpdatesToClients key type oldData newData s)) :=
  (result_sendAll _ _ s).untouched

theorem untouched_wakeup (key : Key) (s : Server) :
    Untouched g s (result (wakeupWaitingClients key s)) := by
  have hconn : (result (wakeupWaitingClients key s)).connections = s.connections ∧
      (result (wakeupWaitingClients key s)).connected = s.connected ∧
      (result (wakeupWaitingClients key s)).nextConnection = s.nextConnection := by
    rw [wakeupWaitingClients]
    cases s.waitingSockets.lookup key with
    | none => exact ⟨rfl, rfl, rfl⟩
    | some fds =>
      obtain ⟨awaited, outbox, heq, _⟩ := wakeupSockets_frame fds s
      cases hrun : wakeupSockets fds s with
      | error t =>
        rw [hrun, result_error] at heq
        simp [hrun, Except.map, result_error, heq]
      | ok t =>
        rw [hrun, result_ok] at heq
        simp [hrun, Except.map, result_ok, heq]
  refine ⟨fun hzero => ?_, hconn.1, hconn.2.1, hconn.2.2⟩
  obtain ⟨hsame, _⟩ := sameAt_wakeup ((occurrences_eq_zero _ _).mp hzero key)
  exact ⟨hsame.occurs.trans hzero, hsame.awaited⟩

theorem untouched_storeSum (fd : Fd) (key : Key) (sum : Int) (s : Server) :
    Untouched g s (result (storeSum fd key sum s)) := by
  have hstore : Untouched g s (store key (toDecimal sum) s) := untouched_of_eq rfl rfl rfl rfl rfl
  rw [storeSum]
  exact hstore.trans (untouched_bind (untouched_bind (result_send _ _ _).untouched
    (fun t => untouched_wakeup key t)) (fun t => untouched_updates _ _ _ _ t))

/-- A query of one socket leaves the waits of another. -/
theorem untouched_query (hne : fd ≠ g) (request : Request) (s : Server) :
    Untouched g s (result (query fd request s)) := by
  have hsend : ∀ message u, Untouched g u (result (send fd message u)) :=
    fun message u => (result_send fd message u).untouched
  have hstore : ∀ key data, Untouched g s (store key data s) :=
    fun _ _ => untouched_of_eq rfl rfl rfl rfl rfl
  have hrefl : Untouched g s s := untouched_of_eq rfl rfl rfl rfl rfl
  cases request with
  | set key newData =>
    exact (hstore key newData).trans (untouched_bind (untouched_wakeup key _)
      (fun t => untouched_updates _ _ _ _ t))
  | compareSet key currentValue newValue =>
    have hwrite : ∀ type, Untouched g s (result ((sendKeyUpdatesToClients key type currentValue
        newValue (store key newValue s)).bind (send fd (.vector newValue)))) := fun type =>
      (hstore key newValue).trans (untouched_bind (untouched_updates _ _ _ _ _)
        (fun t => hsend _ t))
    rw [query, compareSetHandler]
    split
    · split
      · exact hwrite _
      · exact hsend _ s
    · split
      · exact hwrite _
      · exact hsend _ s
  | get key =>
    rw [query, getHandler]
    split
    · exact hrefl
    · exact hsend _ s
  | add key addVal =>
    rw [query, addHandler]
    split
    · exact untouched_storeSum fd key addVal s
    · split
      · exact hrefl
      · exact untouched_storeSum fd key _ s
  | check keys => exact hsend _ s
  | wait keys =>
    rw [query, waitHandler]
    split
    · exact hsend _ s
    · refine ⟨fun hzero => ⟨?_, update_of_ne hne.symm _ _⟩, rfl, rfl, rfl⟩
      show occurrences (List.foldl _ _ _) g = _
      rw [occurrences_foldl_push, if_neg hne, Nat.add_zero, hzero]
  | getNumKeys => exact hsend _ s
  | watchKey key =>
    have hwatch : Untouched g s { s with
        watchedSockets := update s.watchedSockets key (s.watchedSockets key ++ [fd]) } :=
      untouched_of_eq rfl rfl rfl rfl rfl
    exact hwatch.trans (hsend _ _)
  | deleteKey key =>
    rw [query, deleteHandler]
    split
    · exact hsend _ s
    · refine untouched_bind (untouched_updates _ _ _ _ s) (fun t => ?_)
      have herase : Untouched g t { t with tcpStore := t.tcpStore.erase key } :=
        untouched_of_eq rfl rfl rfl rfl rfl
      exact herase.trans (hsend _ _)

end Untouched

/-- Closed sockets wait for nothing, and numbers of connections are not used again. -/
structure Confined (s : Server) : Prop where
  closed : ∀ g, s.connections g = none →
    occurrences s.waitingSockets g = 0 ∧ s.keysAwaited g = 0
  fresh : ∀ g c, s.connections g = some c → c < s.nextConnection

section Confined

variable {s : Server} {fd : Fd}

/-- Closing a socket takes it from every table. -/
theorem Confined.closeSocket (h : Confined s) (fd : Fd) : Confined (s.closeSocket fd) := by
  refine ⟨fun g hg => ?_, fun g c hc => ?_⟩
  · show occurrences (s.waitingSockets.remove fd) g = 0 ∧ update s.keysAwaited fd 0 g = 0
    by_cases heq : g = fd
    · rw [heq, occurrences_remove_self, update_self]
      exact ⟨rfl, rfl⟩
    · rw [occurrences_remove_of_ne _ _ heq, update_of_ne heq]
      exact h.closed g ((update_of_ne heq _ _).symm.trans hg)
  · have hc' : update s.connections fd none g = some c := hc
    by_cases heq : g = fd
    · rw [heq, update_self] at hc'
      cases hc'
    · rw [update_of_ne heq] at hc'
      exact h.fresh g c hc'

/-- A query enters only its own socket into the tables. -/
theorem Confined.query (h : Confined s) (hopen : (s.connections fd).isSome) (request : Request) :
    Confined (result (query fd request s)) := by
  have hconn := (untouched_query (Nat.succ_ne_self fd).symm request s)
  refine ⟨fun g hg => ?_, fun g c hc => ?_⟩
  · rw [hconn.connections] at hg
    have hne : fd ≠ g := by
      rintro rfl
      rw [hg] at hopen
      cases hopen
    obtain ⟨hzero, hawaited⟩ := h.closed g hg
    obtain ⟨hzero', hawaited'⟩ := (untouched_query hne request s).occurs hzero
    exact ⟨hzero', hawaited'.trans hawaited⟩
  · rw [hconn.connections] at hc
    rw [hconn.fresh]
    exact h.fresh g c hc

/-- Every step keeps the closed sockets out of the tables. -/
theorem Confined.step (h : Confined s) (e : Event) : Confined (s.step e) := by
  have hclear : Confined { s with outbox := [] } := ⟨h.closed, h.fresh⟩
  rw [Server.step]
  cases e with
  | accept fd =>
    rw [handle]
    split
    · exact hclear
    · refine ⟨fun g hg => h.closed g ?_, fun g c hc => ?_⟩
      · by_cases heq : g = fd
        · rw [heq] at hg
          exact absurd ((update_self fd _ _).symm.trans hg) (by simp)
        · exact (update_of_ne heq _ _).symm.trans hg
      · show c < s.nextConnection + 1
        have hc' : update s.connections fd (some s.nextConnection) g = some c := hc
        by_cases heq : g = fd
        · rw [heq, update_self, Option.some_inj] at hc'
          omega
        · rw [update_of_ne heq] at hc'
          exact Nat.lt_succ_of_lt (h.fresh g c hc')
  | request fd request =>
    rw [handle]
    split
    · rename_i hopen
      rcases serve_cases fd request { s with outbox := [] } with heq | heq
      · rw [heq]
        exact hclear.query hopen request
      · rw [heq]
        exact (hclear.query hopen request).closeSocket fd
    · exact hclear
  | disconnect c => exact ⟨h.closed, h.fresh⟩
  | hangUp fd =>
    rw [handle]
    split
    · exact hclear.closeSocket fd
    · exact hclear

end Confined

/-- In every run a socket that is closed waits for nothing: the next connection with its number is
not woken up for it. -/
theorem confined_of_run (events : List Event) :
    Confined (clients.exec clients.init events).server :=
  clients.reachable_invariant (fun w => Confined w.server)
    ⟨fun _ _ => ⟨rfl, rfl⟩, fun _ _ h => absurd h (Option.some_ne_none _).symm⟩
    (fun _ e h => h.step e) ⟨events, rfl⟩

end Server

end PyTorchCore.TcpStore
