import Chat.Lockstep.Silent

/-! What the session does to the exchange: it takes the request that is under way, and responds. -/
namespace Chat
open Transition

namespace Link

variable {i : Sid} {username : Bytes} {l : Link} {ls : List Label}

/-- A session that takes the request of a client that waits for its response works on it. -/
private theorem Waits.works {before : List Message} {req : Message} {a : Action} {server : Server}
    (h : Waits username l.client.pc before req) (es : List Event) (hok : (l.server.thread i).Ok)
    (hcalls : (l.server.thread i).calls = before.length)
    (htakes : (l.server.thread i).pc = .login ∧ a = .login (some req.received) ∧
        (req.tag = tagSlogin → (server.thread i).Greeting) ∨
      (l.server.thread i).pc = .receive ∧ a = .receive (some req.received) ∧
        (server.thread i).Serving (req.tag = tagQuit))
    (hreceives : (l.server.thread i).Receives a (server.thread i)) :
    ({ l with server, toServer := [] } : Link).Works i
      (es ++ [⟨i, (server.thread i).serial, a⟩]) before.length req := by
  obtain ⟨_, _, _, -, -, hnumber⟩ := hreceives
  rcases htakes with ⟨hp, rfl, hgreeting⟩ | ⟨hp, rfl, hserving⟩
  · obtain ⟨-, hserial⟩ : (l.server.thread i).room = none ∧ (l.server.thread i).serial = 0 := by
      simpa [Thread.Ok, hp] using hok
    have hzero : before.length = 0 := by simpa [Thread.calls, hp, Pc.fresh] using hcalls.symm
    obtain rfl := List.length_eq_zero_iff.mp hzero
    have hserial' : (server.thread i).serial = 0 := by
      rcases hnumber with ⟨-, -, hsame⟩ | ⟨ha, -⟩
      · exact hsame.trans hserial
      · cases ha
    generalize hlogin : l.client.pc = pc at h
    cases h with
    | login => exact .inl ⟨hgreeting rfl, hlogin, by simp [hserial']⟩
    | response cmd hne => exact absurd rfl hne
  · have hserial' : (server.thread i).serial = before.length := by
      rcases hnumber with ⟨ha, -⟩ | ⟨-, hserial, -⟩
      · cases ha
      · exact hserial.symm.trans hcalls
    have hpos : before ≠ [] := fun hnil => by
      simp [hnil, Thread.calls, hp, Pc.fresh] at hcalls
    refine .inr ⟨hserving, fun hlogin => ?_, by simp [hserial']⟩
    generalize l.client.pc = pc at h hlogin
    cases h with
    | login => exact hpos rfl
    | response => cases hlogin

/-- The session takes the request that is under way. -/
private theorem Inv.takes (h : Inv i username ls l) (hrun : Run Server.Step {} (served ls) l.server)
    {before : List Message} {req : Message} {a : Action} {c : Choice} {server : Server}
    (hs : l.server.Acts i a server)
    (hnext : (l.server.thread i).next i l.server.shared c = some (a, server.thread i))
    (hwaits : Waits username l.client.pc before req) (hrequests : requests ls = before ++ [req])
    (hresponses : (Link.responses ls).length = before.length) (hclient : l.toClient = [])
    (hready : (l.server.thread i).Ready) (hcalls : (l.server.thread i).calls = before.length)
    (hpc : (l.server.thread i).pc.reading = true) {more : Bytes}
    (hst : (l.server.thread i).conn.mFdbuf.stream = Connection.encode req ++ more) :
    written (l.server.thread i).conn (server.thread i).conn = [] ∧
      Inv i username (ls ++ [.server ⟨i, (server.thread i).serial, a⟩])
        { l with server, toServer := [] } := by
  obtain ⟨hfits, htag⟩ := h.fits req (by simp [hrequests])
  have hok := Server.ok hrun i
  have hread := hs.step.reads hok
  have htakes := hready.receives hnext hpc hfits htag hst
  have hkind : a = .login (some req.received) ∨ a = .receive (some req.received) :=
    htakes.imp (·.2.1) (·.2.1)
  have hreads : a.reads = true := by rcases hkind with rfl | rfl <;> rfl
  have hreceives : (l.server.thread i).Receives a (server.thread i) := by
    rcases hread with ⟨conn, -, hunborn, -⟩ | ⟨-, hreceives | ⟨hno, -⟩⟩
    · simp [hunborn, Pc.reading] at hpc
    · exact hreceives
    · simp [hreads] at hno
  have hworks := hwaits.works (served ls) hok hcalls htakes hreceives
  obtain ⟨buffer, ok, m, hrec, hcalls', -⟩ := hreceives
  have hwire : (server.thread i).conn.wire = (l.server.thread i).conn.wire :=
    (Connection.receive_frame hrec).2.1
  have hbroken := (Connection.receive_takes h.session.reads hrec).2.1
  have halive : server.fault = none := by
    rw [hs.fault]
    rcases hkind with rfl | rfl <;> rfl
  have hheard := h.heard
  rw [hrequests, hcalls, List.take_left] at hheard
  have hall : (before ++ [req]).take (before.length + 1) = before ++ [req] := by simp
  rw [hcalls] at hcalls'
  have hreliable : (server.thread i).conn.Reliable :=
    ⟨by rw [hwire]; exact h.session.writes, hbroken⟩
  refine ⟨by simp [written, hwire], h.of_served halive hreliable ?_ ?_ ?_⟩
  · rw [heard_append, hheard, hrequests, hcalls', hall]
    rcases htakes with ⟨hp, rfl, -⟩ | ⟨hp, rfl, -⟩
    · have hzero : before.length = 0 := by simpa [Thread.calls, hp, Pc.fresh] using hcalls.symm
      simp [List.length_eq_zero_iff.mp hzero, Chat.heard]
    · have hpos : 1 ≤ before.length := by
        rw [← hcalls]
        simp [Thread.calls, hp, Pc.fresh]
      rw [List.drop_append_of_le_length hpos]
      simp [Chat.heard]
  · rintro n heq
    rcases hkind with rfl | rfl <;> simp at heq
  · rw [hrequests, hresponses]
    exact .serving hwaits rfl hclient hworks hcalls'

/-- A response that fits goes out whole. -/
private theorem Inv.responds (h : Inv i username ls l)
    (hrun : Run Server.Step {} (served ls) l.server) {resp : Message} {a : Action} {sent : Bool}
    {server : Server} (hs : l.server.Acts i a server)
    (ha : a = .loginReply resp sent ∨ a = .reply resp sent) (hfits : resp.Fits) :
    sent = true ∧ written (l.server.thread i).conn (server.thread i).conn = Connection.encode resp ∧
      (server.thread i).conn.Reliable ∧ (server.thread i).calls = (l.server.thread i).calls ∧
      (server.thread i).serial = (l.server.thread i).serial := by
  have hsent : a.sent = some (resp, sent) := by rcases ha with rfl | rfl <;> rfl
  have hreads : a.reads = false := by rcases ha with rfl | rfl <;> rfl
  obtain ⟨hok, hhealthy, hwritten⟩ := hfits.send h.session.writes
  have hwire : (l.server.thread i).conn.wire.sendAll [resp] =
      ([sent], (server.thread i).conn.wire) := by
    rcases hs.step.wire.2 with ⟨conn, rfl, -⟩ | ⟨-, -, hwire⟩
    · cases hreads
    · simpa [hsent] using hwire
  obtain ⟨hsent', hwire'⟩ : ((l.server.thread i).conn.wire.send resp).1 = sent ∧
      ((l.server.thread i).conn.wire.send resp).2 = (server.thread i).conn.wire := by
    simpa [Wire.sendAll] using hwire
  rw [hwire'] at hhealthy hwritten
  rcases hs.step.reads (Server.ok hrun i) with ⟨conn, rfl, -⟩ |
    ⟨-, ⟨_, _, _, -, -, ⟨rfl, -⟩ | ⟨rfl, -⟩⟩ | ⟨-, hbuf, hcalls, hserial⟩⟩
  · cases hreads
  · cases hreads
  · cases hreads
  · refine ⟨hsent'.symm.trans hok, by rw [written, hwritten, List.drop_left], ⟨hhealthy, ?_⟩,
      hcalls, hserial⟩
    rw [hbuf]
    exact h.session.reads

/-- The session ends its work on the request. -/
private theorem Inv.replies (h : Inv i username ls l)
    (hrun : Run Server.Step {} (served ls) l.server) {before : List Message} {req resp : Message}
    {a : Action} {sent : Bool} {server : Server}
    (hs : l.server.Acts i a server) (ha : a = .loginReply resp sent ∨ a = .reply resp sent)
    (hwaits : Waits username l.client.pc before req) (hrequests : requests ls = before ++ [req])
    (hresponses : (Link.responses ls).length = before.length) (hserver : l.toServer = [])
    (hcalls : (l.server.thread i).calls = before.length + 1) (hfits : resp.Fits)
    (htag : resp.tag ≠ tagDelivery) (herr : l.client.pc = .loginReply → resp.tag ≠ tagErr)
    (hanswers : Answers i (served ls ++ [⟨i, (server.thread i).serial, a⟩]) before.length req resp)
    (hsession : if req.tag = tagQuit then (server.thread i).Over else (server.thread i).Ready) :
    Inv i username (ls ++ [.server ⟨i, (server.thread i).serial, a⟩]) { l with
      server, toClient := Connection.encode resp } := by
  obtain ⟨-, -, hreliable, hcalls', -⟩ := h.responds hrun hs ha hfits
  have halive : server.fault = none := by
    rw [hs.fault]
    rcases ha with rfl | rfl <;> rfl
  have hquiet : Chat.heard i [⟨i, (server.thread i).serial, a⟩] = [] := by
    rcases ha with rfl | rfl <;> rfl
  refine h.of_served halive hreliable ?_ ?_ ?_
  · rw [heard_append, hquiet, List.append_nil, hcalls']
    exact h.heard
  · rintro n heq
    rcases ha with rfl | rfl <;> simp at heq
  · rw [hrequests, hresponses]
    exact .answered hwaits
      ⟨hserver, rfl, hfits, htag, herr, hanswers, hsession, hcalls'.trans hcalls⟩

/-- A step of the session at work that is not silent sends the response. -/
private theorem Inv.serves (h : Inv i username ls l)
    (hrun : Run Server.Step {} (served ls) l.server) {before : List Message} {req : Message}
    {a : Action} {server : Server}
    (hs : l.server.Acts i a server) (ha : a.silent = false)
    (hwaits : Waits username l.client.pc before req) (hrequests : requests ls = before ++ [req])
    (hresponses : (Link.responses ls).length = before.length) (hserver : l.toServer = [])
    (hcalls : (l.server.thread i).calls = before.length + 1)
    (hworks : l.Works i (served ls) before.length req)
    (hpointer : (l.server.thread i).pc.derefs = true → (l.server.thread i).room ≠ none) :
    ∃ resp, written (l.server.thread i).conn (server.thread i).conn = Connection.encode resp ∧
      Inv i username (ls ++ [.server ⟨i, (server.thread i).serial, a⟩]) { l with
        server, toClient := Connection.encode resp } := by
  have hserial (hfresh : (l.server.thread i).pc.fresh = false) :
      (l.server.thread i).serial = before.length := by
    simpa [Thread.calls, hfresh] using hcalls
  rcases hworks with ⟨hgreeting, hlogin, hmem⟩ | ⟨hserving, hlogin, hmem⟩
  · obtain ⟨sent, rfl, hready⟩ := hgreeting.step hs.step
    have hfits : (loginSuccess tagSlogin).Fits := by decide
    obtain ⟨rfl, hwritten, -, -, hsame⟩ := h.responds hrun hs (.inl rfl) hfits
    have hserial' : (server.thread i).serial = before.length :=
      hsame.trans (hserial (by rw [hgreeting.1]; rfl))
    have hreq : req.tag = tagSlogin := by
      generalize l.client.pc = pc at hwaits hlogin
      cases hwaits with
      | login => rfl
      | response => cases hlogin
    have hanswers : Answers i (served ls ++ [⟨i, (server.thread i).serial,
        .loginReply (loginSuccess tagSlogin) true⟩]) before.length req (loginSuccess tagSlogin) :=
      .inl ⟨List.mem_append_left _ hmem, by simp [hserial']⟩
    refine ⟨_, hwritten, h.replies hrun hs (.inl rfl) hwaits hrequests hresponses hserver hcalls
      hfits (by decide) (fun _ => by decide) hanswers ?_⟩
    rw [hreq, if_neg (by decide)]
    exact hready
  · have hborn : (l.server.thread i).pc ≠ .unborn := fun hunborn => by
      simp [Thread.Serving, hunborn] at hserving
    have hfresh : (l.server.thread i).pc.fresh = false := by
      have hpc := hserving.2
      generalize (l.server.thread i).pc = pc at hpc
      cases pc <;> first | rfl | exact hpc.elim
    rcases hserving.step (Server.isOpen hrun i hborn) hpointer hs.step with
      ⟨-, hsilent⟩ | ⟨resp, sent, rfl, hfits, htag, hsession⟩
    · simp [ha] at hsilent
    obtain ⟨rfl, hwritten, -, -, hsame⟩ := h.responds hrun hs (.inr rfl) hfits
    have hserial' : (server.thread i).serial = before.length := hsame.trans (hserial hfresh)
    have hanswers : Answers i (served ls ++ [⟨i, (server.thread i).serial, .reply resp true⟩])
        before.length req resp := .inr ⟨List.mem_append_left _ hmem, by simp [hserial']⟩
    refine ⟨resp, hwritten, h.replies hrun hs (.inr rfl) hwaits hrequests hresponses hserver hcalls
      hfits htag (fun hpc => absurd hpc hlogin) hanswers ?_⟩
    simpa using hsession

/-- A sender session has a room wherever it goes through its pointer. -/
private theorem Inv.pointer (h : Inv i username ls l)
    (hrun : Run Server.Step {} (served ls) l.server)
    (hderef : (l.server.thread i).pc.derefs = true) : (l.server.thread i).room ≠ none := by
  intro hroom
  obtain ⟨-, hleft⟩ := (Server.null_deref_iff hrun i).mp ⟨hderef, hroom⟩
  have hleaves := h.leaves
  rw [List.map_append] at hleaves
  have hsent := leavesFirst_of_append hleaves
  rw [h.heard, leavesFirst_received] at hleft
  obtain ⟨more, hmore⟩ :=
    ((List.take_prefix (l.server.thread i).calls (requests ls)).drop 1).map some
  rw [← hmore] at hsent
  rw [leavesFirst_of_append hsent] at hleft
  cases hleft

/-- While no request is under way the session's `receive` does not return. -/
private theorem no_request (hserver : l.toServer = []) (hpc : l.client.pc ≠ .ended) (rp : Rio) :
    remaining true rp l.toServer (l.client.pc = .ended) = none := by
  rw [remaining, if_pos rfl, if_neg]
  rw [hserver, decide_eq_false hpc]
  exact not_supplied_nil rp

theorem Inv.session_step (h : Inv i username ls l) (hrun : Run Server.Step {} (served ls) l.server)
    {c : Sched} {n : ℕ} {a : Action} {server : Server} {toServer : Bytes}
    (hnext : l.server.next c = some (⟨i, n, a⟩, server))
    (hremote : ∀ conn, a = .accept conn → conn.Reliable)
    (hrem : remaining (l.server.thread i).pc.reading (l.server.thread i).conn.mFdbuf l.toServer
      (l.client.pc = .ended) = some toServer) :
    Inv i username (ls ++ [.server ⟨i, n, a⟩]) { l with
      server, toServer
      toClient := l.toClient ++ written (l.server.thread i).conn (server.thread i).conn } := by
  obtain ⟨hs, rfl⟩ : l.server.Acts i a server ∧ n = (server.thread i).serial :=
    Server.Step.acts ⟨c, hnext⟩
  have hopen := Server.isOpen hrun i
  cases hsilent : a.silent with
  | true =>
    obtain ⟨hnone, hinv⟩ := h.silent hrun hs hsilent hremote (h.pointer hrun)
    have hpc : (l.server.thread i).pc.reading = false := by
      rw [← Bool.not_eq_true]
      intro hpc
      simp [hs.step.not_silent hpc] at hsilent
    obtain rfl : l.toServer = toServer := by simpa [remaining, hpc] using hrem
    rwa [hnone, List.append_nil]
  | false =>
    have hreading (hready : (l.server.thread i).Ready) : (l.server.thread i).pc.reading = true := by
      by_contra hpc
      have hstep := hready.step hopen (by simpa using hpc) hs.step
      simp [hsilent] at hstep
    have hover (ho : (l.server.thread i).Over) : False := by
      simpa [hsilent] using (ho.step hs.step).2
    have hstage := h.stage
    generalize hreqs : requests ls = reqs at hstage
    generalize hcount : (Link.responses ls).length = k at hstage
    cases hstage with
    | rest hpc hrest =>
      have hlive : l.client.pc ≠ .ended := by rcases hpc with ⟨hpc, -⟩ | ⟨hpc, -⟩ <;> simp [hpc]
      rw [hreading hrest.ready, no_request hrest.toServer hlive] at hrem
      cases hrem
    | @asking before req hwaits hserver hclient hready hcalls =>
      have hpc := hreading hready
      rw [hpc, remaining, if_pos rfl, hserver] at hrem
      split at hrem
      · next hsupplied =>
        obtain ⟨hline, more, hst⟩ := hsupplied.line (h.fits req (by simp [hreqs])).1
        obtain rfl : [] = toServer := by simpa [hline] using hrem
        obtain ⟨c', hthread⟩ := Server.next_run hnext fun hunborn => by
          simp [hunborn, Pc.reading] at hpc
        obtain ⟨hnone, hinv⟩ :=
          h.takes hrun hs hthread hwaits hreqs hcount hclient hready hcalls hpc hst
        rwa [hnone, List.append_nil]
      · cases hrem
    | serving hwaits hserver hclient hworks hcalls =>
      obtain rfl : l.toServer = toServer := by simpa [remaining, hworks.not_reading] using hrem
      obtain ⟨resp, hwritten, hinv⟩ :=
        h.serves hrun hs hsilent hwaits hreqs hcount hserver hcalls hworks (h.pointer hrun)
      rwa [hwritten, hclient, List.nil_append]
    | @answered before req resp hwaits hans =>
      have hsession := hans.session
      by_cases hquit : req.tag = tagQuit
      · exact (hover (by simpa [hquit] using hsession)).elim
      · have hlive : l.client.pc ≠ .ended := fun hended => by
          have hwaiting := hwaits.reading
          simp [hended, Sender.Pc.reading] at hwaiting
        rw [hreading (by simpa [hquit] using hsession), no_request hans.toServer hlive] at hrem
        cases hrem
    | finished hpc hserver hclient ho hcalls => exact (hover ho).elim

end Link
end Chat
