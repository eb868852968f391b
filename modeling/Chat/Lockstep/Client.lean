import Chat.Lockstep.Stages

/-! What the client does to the exchange: it sends a request, or takes the response that it waits for. -/
namespace Chat
open Transition

namespace Link

variable {i : Sid} {username : Bytes} {l : Link} {ls : List Label}

private theorem requests_sent (req : Message) :
    requests [.client (.sent req true)] = [req] := rfl

/-- The client sends its next request. -/
private theorem Inv.sends (h : Inv i username ls l) {req : Message} {client : Sender.State}
    (hrest : l.Resting i (requests ls))
    (hresponses : (Link.responses ls).length = (requests ls).length)
    (hwaits : Waits username client.pc (requests ls) req) (hfault : client.fault = none)
    (hfits : req.Fits) (htag : req.tag ≠ tagDelivery)
    (hhealthy : client.client.conn.wire.Healthy)
    (hwritten : client.client.conn.wire.written =
      l.client.client.conn.wire.written ++ Connection.encode req)
    (hbuf : client.client.conn.mFdbuf = l.client.client.conn.mFdbuf)
    (hstdin : ∀ t ∈ client.client.stdin, (Sender.command t).message.Fits)
    (hleaves : leavesFirst
      ((((requests ls ++ [req]).drop 1) ++ Sender.pending client).map some) = false) :
    Inv i username (ls ++ [.client (.sent req true)]) { l with
      client, toServer := l.toServer ++ written l.client.client.conn client.client.conn } where
  alive := h.alive
  intact := hfault
  client := ⟨hhealthy, by rw [hbuf]; exact h.client.reads⟩
  session := h.session
  stdin := hstdin
  fits r hr := by
    rw [requests_append, List.mem_append] at hr
    rcases hr with hr | hr
    · exact h.fits r hr
    · obtain rfl : r = req := by simpa [requests] using hr
      exact ⟨hfits, htag⟩
  heard := by
    have htake : (requests ls ++ [req]).take (requests ls).length = requests ls := by simp
    have hheard := h.heard
    rw [hrest.calls, List.take_length] at hheard
    simpa [served, requests_append, requests_sent, hrest.calls, htake] using hheard
  leaves := by
    rw [requests_append]
    exact hleaves
  login n := by simpa [served] using h.login n
  responses k m hk := by
    obtain ⟨r, resp, hr, hm, hans⟩ := h.responses k m (by simpa [Link.responses] using hk)
    have hlt : k < (requests ls).length := (List.getElem?_eq_some_iff.mp hr).1
    refine ⟨r, resp, ?_, hm, by simpa [served] using hans⟩
    rw [requests_append, List.getElem?_append_left hlt, hr]
  stage := by
    have hnew : written l.client.client.conn client.client.conn = Connection.encode req := by
      rw [written, hwritten, List.drop_left]
    have hcount : (Link.responses (ls ++ [.client (.sent req true)])).length =
        (requests ls).length := by simpa [Link.responses] using hresponses
    rw [hcount, requests_append, requests_sent]
    exact .asking hwaits (by simp [hrest.toServer, hnew]) hrest.toClient hrest.ready hrest.calls

/-- The client takes the response that it waits for. -/
private theorem Inv.gets (h : Inv i username ls l) {before : List Message} {req resp : Message}
    {client : Sender.State} (hrequests : requests ls = before ++ [req])
    (hresponses : (Link.responses ls).length = before.length)
    (hans : l.Answered i (served ls) before req resp)
    (hpc : client.pc = if req.tag = tagQuit then .ended else .command)
    (hfault : client.fault = none) (hwire : client.client.conn.wire = l.client.client.conn.wire)
    (hbroken : client.client.conn.mFdbuf.broken = false)
    (hstdin : client.client.stdin = l.client.client.stdin)
    (hpending : Sender.pending client = Sender.pending l.client) :
    Inv i username (ls ++ [.client (.got (some resp.received))]) { l with
      client
      toClient := []
      toServer := l.toServer ++ written l.client.client.conn client.client.conn } where
  alive := h.alive
  intact := hfault
  client := ⟨by rw [hwire]; exact h.client.writes, hbroken⟩
  session := h.session
  stdin := by
    rw [hstdin]
    exact h.stdin
  fits r hr := h.fits r (by simpa [requests] using hr)
  heard := by simpa [served, requests] using h.heard
  leaves := by simpa [requests, hpending] using h.leaves
  login n := by simpa [served] using h.login n
  responses k m hk := by
    rw [responses_append] at hk
    by_cases hlt : k < (Link.responses ls).length
    · rw [List.getElem?_append_left hlt] at hk
      simpa [served, requests] using h.responses k m hk
    · rw [List.getElem?_append_right (by omega)] at hk
      obtain ⟨hzero, rfl⟩ : k - (Link.responses ls).length = 0 ∧ some resp.received = m := by
        simpa [Link.responses, List.getElem?_singleton] using hk
      obtain rfl : k = before.length := by omega
      exact ⟨req, resp, by simp [requests_append, hrequests], rfl,
        by simpa [served] using hans.answers⟩
  stage := by
    have hnone : written l.client.client.conn client.client.conn = [] := by simp [written, hwire]
    have hrequests' : requests (ls ++ [.client (.got (some resp.received))]) = before ++ [req] := by
      simpa [requests] using hrequests
    have hcount : (Link.responses (ls ++ [.client (.got (some resp.received))])).length =
        (before ++ [req]).length := by simp [Link.responses, ← hresponses]
    have hserver : l.toServer ++ written l.client.client.conn client.client.conn = [] := by
      simp [hans.toServer, hnone]
    have hcalls : (l.server.thread i).calls = (before ++ [req]).length := by simp [hans.calls]
    have hsession := hans.session
    rw [hcount, hrequests']
    by_cases hquit : req.tag = tagQuit
    · rw [if_pos hquit] at hpc hsession
      exact .finished hpc hserver rfl hsession hcalls
    · rw [if_neg hquit] at hpc hsession
      exact .rest (.inr ⟨hpc, by simp⟩) ⟨hserver, rfl, hsession, hcalls⟩

private theorem Inv.logs_in (h : Inv i username ls l) (huser : Message.Fits ⟨tagSlogin, username⟩)
    (hpc : l.client.pc = .login) (hrequests : requests ls = [])
    (hresponses : (Link.responses ls).length = (requests ls).length)
    (hrest : l.Resting i (requests ls)) {a : Sender.Action} {buffer : Bytes} {client : Sender.State}
    (hnext : Sender.next username l.client buffer = some (a, client)) :
    Inv i username (ls ++ [.client a]) { l with
      client, toServer := l.toServer ++ written l.client.client.conn client.client.conn } := by
  obtain ⟨conn, hsend, hhealthy, hwritten, hbuf⟩ := Sender.send_fits huser h.client.writes
    (str "Send slogin not successful.\n") .loginReply
  obtain ⟨rfl, rfl⟩ := by simpa [Sender.next, hpc, hsend] using hnext
  refine h.sends hrest hresponses (by rw [hrequests]; exact .login) rfl huser
    (by decide : tagSlogin ≠ tagDelivery) hhealthy hwritten hbuf h.stdin ?_
  have hleaves := h.leaves
  rw [hrequests] at hleaves ⊢
  simpa [Sender.pending, hpc] using hleaves

private theorem Inv.commands (h : Inv i username ls l) (hpc : l.client.pc = .command)
    (hrequests : requests ls ≠ [])
    (hresponses : (Link.responses ls).length = (requests ls).length)
    (hrest : l.Resting i (requests ls)) {a : Sender.Action} {buffer : Bytes} {client : Sender.State}
    (hnext : Sender.next username l.client buffer = some (a, client)) :
    Inv i username (ls ++ [.client a]) { l with
      client, toServer := l.toServer ++ written l.client.client.conn client.client.conn } := by
  have hline : (Sender.command l.client.client.getline.1).message.Fits ∧
      l.client.client.getline.2.conn = l.client.client.conn ∧
      ∀ t ∈ l.client.client.getline.2.stdin, (Sender.command t).message.Fits := by
    have hstdin := h.stdin
    unfold Client.getline
    cases hlines : l.client.client.stdin with
    | nil =>
      have hend : Sender.command [] = .sendall [] := by decide
      exact ⟨by rw [hend]; decide, rfl, by simp [hlines]⟩
    | cons t ts =>
      rw [hlines] at hstdin
      exact ⟨hstdin t List.mem_cons_self, rfl, fun t' ht' => hstdin t' (List.mem_cons_of_mem _ ht')⟩
  obtain ⟨hfits, hconn, hstdin⟩ := hline
  obtain ⟨conn, hsend, hhealthy, hwritten, hbuf⟩ := Sender.send_fits hfits
    (by rw [hconn]; exact h.client.writes) (Sender.command l.client.client.getline.1).notSent
    (.response (Sender.command l.client.client.getline.1))
  obtain ⟨rfl, rfl⟩ := by simpa [Sender.next, hpc, hsend] using hnext
  refine h.sends hrest hresponses (.response _ hrequests) rfl hfits
    (Sender.command _).tag_ne_delivery hhealthy (by rw [hwritten, hconn]) (by rw [hbuf, hconn])
    hstdin ?_
  have hleaves := h.leaves
  have hpending : Sender.pending l.client =
      Sender.pending { client := l.client.client, pc := .command } := by simp [Sender.pending, hpc]
  rw [hpending] at hleaves
  have hdrop : (requests ls ++ [(Sender.command l.client.client.getline.1).message]).drop 1 =
      (requests ls).drop 1 ++ [(Sender.command l.client.client.getline.1).message] := by
    rw [List.drop_append_of_le_length (List.length_pos_iff.mpr hrequests)]
  rw [hdrop, List.append_assoc]
  exact Sender.leavesFirst_command hleaves conn

private theorem quit_iff (cmd : Command) : cmd.message.tag = tagQuit ↔ cmd = .quit := by
  cases cmd with
  | join => exact iff_of_false (by decide : tagJoin ≠ tagQuit) Command.noConfusion
  | leave => exact iff_of_false (by decide : tagLeave ≠ tagQuit) Command.noConfusion
  | quit => exact iff_of_true rfl rfl
  | sendall => exact iff_of_false (by decide : tagSendall ≠ tagQuit) Command.noConfusion

theorem finish_same (cmd : Command) (resp : Message) (c : Client) :
    (Sender.finish cmd resp c).conn = c.conn ∧ (Sender.finish cmd resp c).stdin = c.stdin := by
  unfold Sender.finish
  by_cases hquit : cmd = .quit
  · by_cases herr : resp.tag = tagErr <;> simp [hquit, herr, Client.cerr]
  · by_cases herr : resp.tag = tagErr <;> simp [hquit, herr, Client.cerr]

private theorem Inv.finishes (h : Inv i username ls l) {before : List Message} {req resp : Message}
    (hwaits : Waits username l.client.pc before req) (hrequests : requests ls = before ++ [req])
    (hresponses : (Link.responses ls).length = before.length)
    (hans : l.Answered i (served ls) before req resp) {more : Bytes}
    (hst : l.client.client.conn.mFdbuf.stream = Connection.encode resp ++ more)
    {a : Sender.Action} {buffer : Bytes} {client : Sender.State}
    (hnext : Sender.next username l.client buffer = some (a, client)) :
    Inv i username (ls ++ [.client a]) { l with
      client
      toClient := []
      toServer := l.toServer ++ written l.client.client.conn client.client.conn } := by
  have hbroken := h.client.reads
  have herr := hans.welcome
  generalize hpc : l.client.pc = pc at hwaits herr
  cases hwaits with
  | login =>
    have hok : resp.received.tag ≠ tagErr := herr rfl
    obtain ⟨conn, hreceive, hwire, hintact⟩ := @Sender.receive_fits buffer _ _ hans.fits hans.tag _
      hst (str "Received slogin not successful.\n") fun resp c =>
        { client := Sender.welcome resp c, pc := if resp.tag = tagErr then .ended else .command }
    obtain ⟨rfl, rfl⟩ := by
      simpa only [Sender.next, hpc, hreceive, Option.some.injEq, Prod.mk.injEq] using hnext
    have hslogin : ¬ tagSlogin = tagQuit := by decide
    have hsame : Sender.welcome resp.received { l.client.client with conn } =
        { l.client.client with conn } := if_neg hok
    refine h.gets hrequests hresponses hans (by simp [hok, hslogin]) rfl
      (by rw [hsame, hwire]) (by rw [hsame, hintact, hbroken]) (by rw [hsame]) ?_
    simp [Sender.pending, hpc, hok, hsame]
  | response cmd hbefore =>
    obtain ⟨conn, hreceive, hwire, hintact⟩ := @Sender.receive_fits buffer _ _ hans.fits hans.tag _
      hst cmd.notReceived fun resp c =>
        { client := Sender.finish cmd resp c, pc := if cmd = .quit then .ended else .command }
    obtain ⟨rfl, rfl⟩ := by
      simpa only [Sender.next, hpc, hreceive, Option.some.injEq, Prod.mk.injEq] using hnext
    obtain ⟨hconn, hstdin⟩ := finish_same cmd resp.received { l.client.client with conn }
    refine h.gets hrequests hresponses hans (by simp [quit_iff]) rfl
      (by rw [hconn, hwire]) (by rw [hconn, hintact, hbroken]) (by rw [hstdin]) ?_
    by_cases hquit : cmd = .quit
    · simp [Sender.pending, hpc, hquit]
    · rw [Sender.pending_response hpc hquit]
      simp [Sender.pending, hquit, hstdin]

/-- While the client waits and no response is under way its `receive` does not return. -/
private theorem not_remaining (hclient : l.toClient = []) (halive : l.server.fault = none)
    (hcloses : (l.server.thread i).conn.closes = 0) (rp : Rio) :
    remaining true rp l.toClient (l.sessionClosed i) = none := by
  have hopen : l.sessionClosed i = false := by simp [sessionClosed, halive, hcloses]
  rw [remaining, if_pos rfl, if_neg]
  rw [hclient, hopen]
  exact not_supplied_nil rp

theorem Inv.client_step (h : Inv i username ls l) (hrun : Run Server.Step {} (served ls) l.server)
    (huser : Message.Fits ⟨tagSlogin, username⟩) {a : Sender.Action} {buffer toClient : Bytes}
    {client : Sender.State} (hnext : Sender.next username l.client buffer = some (a, client))
    (hrem : remaining l.client.pc.reading l.client.client.conn.mFdbuf l.toClient
      (l.sessionClosed i) = some toClient) :
    Inv i username (ls ++ [.client a]) { l with
      client, toClient
      toServer := l.toServer ++ written l.client.client.conn client.client.conn } := by
  have hstage := h.stage
  generalize hreqs : requests ls = reqs at hstage
  generalize hcount : (Link.responses ls).length = n at hstage
  have hcloses := Server.closes_eq hrun i
  cases hstage with
  | rest hpc hrest =>
    obtain rfl : l.toClient = toClient := by
      rcases hpc with ⟨hpc, -⟩ | ⟨hpc, -⟩ <;> simpa [remaining, hpc, Sender.Pc.reading] using hrem
    rw [← hreqs] at hrest hcount
    rcases hpc with ⟨hpc, hnil⟩ | ⟨hpc, hne⟩
    · exact h.logs_in huser hpc (hreqs.trans hnil) hcount hrest hnext
    · exact h.commands hpc (hreqs ▸ hne) hcount hrest hnext
  | asking hwaits hserver hclient hready hcalls =>
    have hlive : (l.server.thread i).pc ≠ .done := fun hdone => by
      simp [Thread.Ready, hdone] at hready
    rw [hwaits.reading, not_remaining hclient h.alive (hcloses hlive)] at hrem
    cases hrem
  | serving hwaits hserver hclient hworks hcalls =>
    have hlive : (l.server.thread i).pc ≠ .done := fun hdone => by
      rcases hworks with ⟨hgreeting, -⟩ | ⟨hserving, -⟩
      · simp [Thread.Greeting, hdone] at hgreeting
      · simp [Thread.Serving, hdone] at hserving
    rw [hwaits.reading, not_remaining hclient h.alive (hcloses hlive)] at hrem
    cases hrem
  | answered hwaits hans =>
    rw [hwaits.reading, remaining, if_pos rfl, hans.toClient] at hrem
    split at hrem
    · next hsupplied =>
      obtain ⟨hline, more, hst⟩ := hsupplied.line hans.fits
      obtain rfl : [] = toClient := by simpa [hline] using hrem
      exact h.finishes hwaits hreqs hcount hans hst hnext
    · cases hrem
  | finished hpc => simp [Sender.next, hpc] at hnext

end Link
end Chat
