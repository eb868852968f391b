import Chat.Lockstep.Stages

/-! What leaves the exchange as it is: the other sessions, and what the session does in silence. -/
namespace Chat
open Transition

namespace Link

variable {i : Sid} {username : Bytes} {l : Link} {ls : List Label}

/-- A step of the server leaves what was asked and answered as it was. -/
theorem Inv.of_served (h : Inv i username ls l) {e : Event} {server : Server}
    {toServer toClient : Bytes} (halive : server.fault = none)
    (hsession : (server.thread i).conn.Reliable)
    (hheard : Chat.heard i (served ls ++ [e]) =
      (((requests ls).take (server.thread i).calls).drop 1).map fun req => some req.received)
    (hlogin : ∀ n, e ≠ ⟨i, n, .login none⟩)
    (hstage : Stage i username (served ls ++ [e]) { l with server, toServer, toClient }
      (requests ls) (Link.responses ls).length) :
    Inv i username (ls ++ [.server e]) { l with server, toServer, toClient } where
  alive := halive
  intact := h.intact
  client := h.client
  session := hsession
  stdin := h.stdin
  fits r hr := h.fits r (by simpa [requests] using hr)
  heard := by simpa [served, requests] using hheard
  leaves := by simpa [requests] using h.leaves
  login n := by
    have hnew : ¬ ⟨i, n, .login none⟩ = e := fun heq => hlogin n heq.symm
    simpa [served, hnew] using h.login n
  responses k m hk := by
    obtain ⟨req, resp, hreq, hm, hans⟩ := h.responses k m (by simpa [Link.responses] using hk)
    refine ⟨req, resp, by simpa [requests] using hreq, hm, ?_⟩
    rw [served_append]
    exact hans.mono _
  stage := by simpa [served, requests, Link.responses] using hstage

/-- Steps that a session takes in silence do not change the stage of the exchange. -/
theorem Stage.silent {es : List Event} {reqs : List Message} {n : ℕ}
    (h : Stage i username es l reqs n) {server : Server} (es' : List Event)
    (hcalls : (server.thread i).calls = (l.server.thread i).calls)
    (hready : (l.server.thread i).Ready → (server.thread i).Ready)
    (hgreeting : (l.server.thread i).Greeting → (server.thread i).Greeting)
    (hserving : ∀ last, (l.server.thread i).Serving last → (server.thread i).Serving last)
    (hover : (l.server.thread i).Over → (server.thread i).Over) :
    Stage i username (es ++ es') { l with server } reqs n := by
  cases h with
  | rest hpc hrest =>
    exact .rest hpc ⟨hrest.toServer, hrest.toClient, hready hrest.ready, hcalls.trans hrest.calls⟩
  | asking hwaits hserver hclient hr hc =>
    exact .asking hwaits hserver hclient (hready hr) (hcalls.trans hc)
  | serving hwaits hserver hclient hworks hc =>
    refine .serving hwaits hserver hclient ?_ (hcalls.trans hc)
    rcases hworks with ⟨hg, hpc, hmem⟩ | ⟨hs, hpc, hmem⟩
    · exact .inl ⟨hgreeting hg, hpc, List.mem_append_left _ hmem⟩
    · exact .inr ⟨hserving _ hs, hpc, List.mem_append_left _ hmem⟩
  | @answered before req resp hwaits hans =>
    refine .answered hwaits { hans with
      answers := hans.answers.mono _
      session := ?_
      calls := hcalls.trans hans.calls }
    have hsession := hans.session
    by_cases hquit : req.tag = tagQuit
    · simpa [hquit] using hover (by simpa [hquit] using hsession)
    · simpa [hquit] using hready (by simpa [hquit] using hsession)
  | finished hpc hserver hclient ho hc =>
    exact .finished hpc hserver hclient (hover ho) (hcalls.trans hc)

/-- A step of another session. -/
theorem Inv.other (h : Inv i username ls l) {e : Event} {server : Server}
    (hs : l.server.Step e server) (he : e.session ≠ i) (hfault : ∀ f, e.action ≠ .fault f) :
    Inv i username (ls ++ [.server e]) { l with server } := by
  obtain ⟨hacts, -⟩ := hs.acts
  have hframe : server.thread i = l.server.thread i := hacts.frame i he.symm
  have halive : server.fault = none := by
    rw [hacts.fault]
    generalize e.action = a at hfault
    cases a <;> first | rfl | exact absurd rfl (hfault _)
  refine h.of_served halive (by rw [hframe]; exact h.session) ?_ (fun n heq => he (by rw [heq])) ?_
  · rw [heard_append, heard_other he, List.append_nil, hframe]
    exact h.heard
  · refine h.stage.silent _ ?_ ?_ ?_ ?_ ?_ <;> simp [hframe]

/-- The session itself does something that has to do neither with the client nor with a fault. -/
theorem Inv.silent (h : Inv i username ls l)
    (hrun : Run Server.Step {} (served ls) l.server) {a : Action} {server : Server}
    (hs : l.server.Acts i a server) (ha : a.silent = true)
    (hremote : ∀ conn, a = .accept conn → conn.Reliable)
    (hpointer : (l.server.thread i).pc.derefs = true → (l.server.thread i).room ≠ none) :
    written (l.server.thread i).conn (server.thread i).conn = [] ∧
      Inv i username (ls ++ [.server ⟨i, (server.thread i).serial, a⟩]) { l with server } := by
  have hopen := Server.isOpen hrun i
  obtain ⟨hcalls, -, hquiet, hconn⟩ := hs.step.silent (Server.ok hrun i) ha
  have hpc : (l.server.thread i).pc.reading = false := by
    rw [← Bool.not_eq_true]
    intro hpc
    simp [hs.step.not_silent hpc] at ha
  have halive : server.fault = none := by
    rw [hs.fault]
    cases a <;> first | rfl | cases ha
  constructor
  · rcases hconn with ⟨conn, -, -, hconn, hempty⟩ | ⟨-, hwire, -⟩
    · simp [written, hconn, hempty]
    · simp [written, hwire]
  refine h.of_served halive ?_ ?_ ?_ ?_
  · rcases hconn with ⟨conn, ha, -, hconn, -⟩ | ⟨-, hwire, hbuf⟩
    · rw [hconn]
      exact hremote conn ha
    · exact ⟨by rw [hwire]; exact h.session.writes, by rw [hbuf]; exact h.session.reads⟩
  · rw [heard_append, hquiet, List.append_nil, hcalls]
    exact h.heard
  · rintro n heq
    obtain ⟨-, -, rfl⟩ : i = i ∧ (server.thread i).serial = n ∧ a = .login none := by
      simpa using heq
    cases ha
  · refine h.stage.silent _ hcalls (fun hr => (hr.step hopen hpc hs.step).1) (fun hg => ?_)
      (fun last hserving => ?_) fun ho => (ho.step hs.step).1
    · obtain ⟨sent, rfl, -⟩ := hg.step hs.step
      cases ha
    · have hlive : (l.server.thread i).pc ≠ .unborn := fun hunborn => by
        simp [Thread.Serving, hunborn] at hserving
      rcases hserving.step (hopen hlive) hpointer hs.step with ⟨hserving', -⟩ | ⟨_, _, rfl, -⟩
      · exact hserving'
      · cases ha

end Link
end Chat
