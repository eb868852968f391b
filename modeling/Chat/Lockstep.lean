import Chat.Lockstep.Client
import Chat.Lockstep.Session

/-! A sender client and its session take turns: one request, then its one response. -/
namespace Chat
open Transition

namespace Link

variable {i : Sid} {username : Bytes} {l : Link} {ls : List Label}

/-- The link of a client that has connected. -/
def start (conn : Connection) (stdin : List Bytes) : Link :=
  { client := { client := { conn, stdin } } }

variable {conn : Connection} {stdin : List Bytes}

private theorem inv_start (hconn : conn.Reliable)
    (hstdin : ∀ t ∈ stdin, (Sender.command t).message.Fits)
    (hleaves : leavesFirst ((stdin.takeWhile fun t => Sender.command t ≠ .quit).map
      fun t => some (Sender.command t).message) = false) :
    Inv i username [] (start conn stdin) where
  alive := rfl
  intact := rfl
  client := hconn
  session := ⟨List.not_mem_nil, rfl⟩
  stdin := hstdin
  fits := nofun
  heard := rfl
  leaves := by simpa [Sender.pending, start, requests, Function.comp_def] using hleaves
  login _ := nofun
  responses := nofun
  stage := .rest (.inl ⟨rfl, rfl⟩) ⟨rfl, rfl, trivial, rfl⟩

theorem inv (hrun : Run (Step i username) (start conn stdin) ls l) (hconn : conn.Reliable)
    (hremote : ∀ n remote, ⟨i, n, .accept remote⟩ ∈ served ls → remote.Reliable)
    (hothers : ∀ e ∈ served ls, e.session ≠ i → ∀ f, e.action ≠ .fault f)
    (huser : Message.Fits ⟨tagSlogin, username⟩)
    (hstdin : ∀ t ∈ stdin, (Sender.command t).message.Fits)
    (hleaves : leavesFirst ((stdin.takeWhile fun t => Sender.command t ≠ .quit).map
      fun t => some (Sender.command t).message) = false) : Inv i username ls l := by
  refine hrun.invariant (fun ls l =>
    (∀ n remote, ⟨i, n, .accept remote⟩ ∈ served ls → remote.Reliable) →
    (∀ e ∈ served ls, e.session ≠ i → ∀ f, e.action ≠ .fault f) → Inv i username ls l)
    (fun _ _ => inv_start hconn hstdin hleaves) ?_ hremote hothers
  intro ls l lab l' hrun ih hs hremote hothers
  rw [served_append] at hremote hothers
  have h := ih (fun n remote hmem => hremote n remote (List.mem_append_left _ hmem))
    fun e he => hothers e (List.mem_append_left _ he)
  have hserver := served_run hrun
  rcases hs.turn with ⟨a, buffer, client, toClient, rfl, hnext, hrem, rfl⟩ |
    ⟨e, c, server, toServer, rfl, hnext, hrem, rfl⟩
  · exact h.client_step hserver huser hnext hrem
  · have hnew : e ∈ served ls ++ served [.server e] := by simp [served]
    by_cases he : e.session = i
    · obtain ⟨j, n, a⟩ := e
      obtain rfl : j = i := he
      exact h.session_step hserver hnext (fun remote ha => hremote n remote (ha ▸ hnew))
        (by simpa using hrem)
    · obtain rfl : l.toServer = toServer := by simpa [remaining, he] using hrem
      have hframe : server.thread i = l.server.thread i :=
        (Server.Step.acts ⟨c, hnext⟩).1.frame i fun h => he h.symm
      have hnone : written (l.server.thread i).conn (server.thread i).conn = [] := by
        simp [written, hframe]
      rw [hnone, List.append_nil]
      exact h.other ⟨c, hnext⟩ he (hothers e hnew he)

/-- The client and session `i` are in step: what is under way, what has been answered, and who
waits. -/
structure InLockstep (i : Sid) (ls : List Label) (l : Link) : Prop where
  inFlight : ∃ up down : List Message, l.toServer = lines up ∧ l.toClient = lines down ∧
    up.length + down.length ≤ 1
  completed : (requests ls).length =
    (Link.responses ls).length + if l.client.pc.reading then 1 else 0
  answered : ∀ k m, (Link.responses ls)[k]? = some m → ∃ req resp, (requests ls)[k]? = some req ∧
    m = some resp.received ∧ Answers i (served ls) k req resp
  received : none ∉ Link.responses ls ∧
    ∀ n, ⟨i, n, .login none⟩ ∉ served ls ∧ ⟨i, n, .receive none⟩ ∉ served ls
  running : l.client.fault = none ∧ l.server.fault = none
  noDeadlock : ¬ (l.client.pc.reading = true ∧ (l.server.thread i).pc.reading = true ∧
    l.toServer = [] ∧ l.toClient = [])

private theorem encode_ne_nil (msg : Message) : Connection.encode msg ≠ [] := by
  simp [Message.encode_eq]

private theorem lines_single (msg : Message) : Connection.encode msg = lines [msg] := by
  simp [lines]

private theorem Stage.inFlight {es : List Event} {reqs : List Message} {n : ℕ}
    (h : Stage i username es l reqs n) : ∃ up down : List Message, l.toServer = lines up ∧
      l.toClient = lines down ∧ up.length + down.length ≤ 1 := by
  cases h with
  | rest _ hrest => exact ⟨[], [], hrest.toServer, hrest.toClient, by simp⟩
  | serving _ hserver hclient | finished _ hserver hclient =>
    exact ⟨[], [], hserver, hclient, by simp⟩
  | asking _ hserver hclient =>
    exact ⟨[_], [], hserver.trans (lines_single _), hclient, by simp⟩
  | answered _ hans =>
    exact ⟨[], [_], hans.toServer, hans.toClient.trans (lines_single _), by simp⟩

private theorem Stage.completed {es : List Event} {reqs : List Message} {n : ℕ}
    (h : Stage i username es l reqs n) :
    reqs.length = n + if l.client.pc.reading then 1 else 0 := by
  cases h with
  | rest hpc => rcases hpc with ⟨hpc, -⟩ | ⟨hpc, -⟩ <;> simp [hpc, Sender.Pc.reading]
  | asking hwaits | serving hwaits | answered hwaits => simp [hwaits.reading]
  | finished hpc => simp [hpc, Sender.Pc.reading]

private theorem Stage.noDeadlock {es : List Event} {reqs : List Message} {n : ℕ}
    (h : Stage i username es l reqs n) : ¬ (l.client.pc.reading = true ∧
      (l.server.thread i).pc.reading = true ∧ l.toServer = [] ∧ l.toClient = []) := by
  rintro ⟨hclient, hsession, hup, hdown⟩
  cases h with
  | rest hpc => rcases hpc with ⟨hpc, -⟩ | ⟨hpc, -⟩ <;> simp [hpc, Sender.Pc.reading] at hclient
  | asking _ hserver => exact encode_ne_nil _ (hserver.symm.trans hup)
  | serving _ _ _ hworks => simp [hworks.not_reading] at hsession
  | answered _ hans => exact encode_ne_nil _ (hans.toClient.symm.trans hdown)
  | finished hpc => simp [hpc, Sender.Pc.reading] at hclient

theorem Inv.inLockstep (h : Inv i username ls l) : InLockstep i ls l where
  inFlight := h.stage.inFlight
  completed := h.stage.completed
  answered := h.responses
  received := by
    refine ⟨fun hnone => ?_, fun n => ⟨h.login n, fun hmem => ?_⟩⟩
    · obtain ⟨k, hk⟩ := List.mem_iff_getElem?.mp hnone
      obtain ⟨req, resp, -, hresp, -⟩ := h.responses k none hk
      cases hresp
    · have hheard : none ∈ Chat.heard i (served ls) :=
        List.mem_filterMap.mpr ⟨_, hmem, by simp⟩
      rw [h.heard] at hheard
      obtain ⟨req, -, hreq⟩ := List.mem_map.mp hheard
      cases hreq
  running := ⟨h.intact, h.alive⟩
  noDeadlock := h.stage.noDeadlock

/-- In every run a sender client and its session stay in step, if the client's lines fit and no
leave comes before the first join. -/
theorem lockstep (hrun : Run (Step i username) (start conn stdin) ls l) (hconn : conn.Reliable)
    (hremote : ∀ n remote, ⟨i, n, .accept remote⟩ ∈ served ls → remote.Reliable)
    (hothers : ∀ e ∈ served ls, e.session ≠ i → ∀ f, e.action ≠ .fault f)
    (huser : newline ∉ username ∧ 0 ∉ username) (hstdin : ∀ t ∈ stdin, newline ∉ t ∧ 0 ∉ t)
    (hlength : ∀ msg ∈ Sender.requests username stdin, (Connection.encode msg).length ≤ 254)
    (hleaves : leavesFirst ((stdin.takeWhile fun t => Sender.command t ≠ .quit).map
      fun t => some (Sender.command t).message) = false) : InLockstep i ls l := by
  have hlogin := hlength _ List.mem_cons_self
  have hcommands (t : Bytes) (ht : t ∈ stdin) : (Sender.command t).message.Fits := by
    obtain ⟨hnewline, hnul⟩ := hstdin t ht
    exact Sender.command_fits hnewline hnul
      (hlength _ (List.mem_cons_of_mem _ (List.mem_map_of_mem ht)))
  have huser' : Message.Fits ⟨tagSlogin, username⟩ :=
    Sender.fits_of_tag (by decide) huser.1 huser.2 hlogin
  exact (inv hrun hconn hremote hothers huser' hcommands hleaves).inLockstep

/-- Alice's end of the connection, and what comes on it. -/
private def caller : Connection :=
  .ofFd 3 [.data ⟨str "ok:Sender logged in\nok:Join suc", by decide⟩, .eintr,
    .data ⟨str "cessful\nok:Sendall successful\nok:Quit successful\n", by decide⟩] []

private def dialogue : List Bytes := [str "/join lobby", str "hi", str "/quit"]

/-- Alice joins the lobby, where Bob is, says hi and quits. -/
private def joint : List Turn :=
  .client [] :: (.client 1 "rlogin:bob\njoin:lobby\n" :: Sched.steps 1 11).map .server ++
    (.client 0 "slogin:alice\njoin:lobby\nsendall:hi\nquit:bye\n" :: Sched.steps 0 3).map .server ++
    [.client [], .client []] ++ (Sched.steps 0 8).map .server ++ [.client [], .client []] ++
    (Sched.steps 0 12).map .server ++ [.client [], .client []] ++ (Sched.steps 0 3).map .server ++
    [.client []]

private def jointly : Option (List Label × Link) :=
  execute (next 0 (str "alice")) (start caller dialogue) joint

/-- Every connection is reliable, and nothing faults. -/
private def calm (ls : List Label) : Bool :=
  (served ls).all fun e => match e.action with
    | .accept remote => remote.wire.writes.isEmpty && !remote.mFdbuf.broken
    | .fault _ => false
    | _ => true

theorem lockstep_dialogue : ∃ ls l, Run (Step 0 (str "alice")) (start caller dialogue) ls l ∧
    InLockstep 0 ls l ∧ l.client.pc = .ended ∧ (requests ls).length = 4 := by
  have houtcome : jointly.map (fun p => (calm p.1, p.2.client.pc, (requests p.1).length)) =
      some (true, .ended, 4) := by decide +kernel
  obtain ⟨⟨ls, l⟩, h, hp⟩ := Option.map_eq_some_iff.mp houtcome
  obtain ⟨hcalm, hended, hfour⟩ :
      calm ls = true ∧ l.client.pc = .ended ∧ (requests ls).length = 4 := by simpa using hp
  have hrun : Run (Step 0 (str "alice")) (start caller dialogue) ls l :=
    run_of_execute (fun _ turn _ _ hturn => ⟨turn, hturn⟩) h
  have hall := List.all_eq_true.mp hcalm
  refine ⟨ls, l, hrun, lockstep hrun ⟨List.not_mem_nil, rfl⟩ (fun n remote hmem => ?_)
    (fun e he _ f hf => ?_) (by decide) (by decide) (by decide) (by decide), hended, hfour⟩
  · obtain ⟨hwrites, hreads⟩ : remote.wire.writes = [] ∧ remote.mFdbuf.broken = false := by
      simpa using hall _ hmem
    exact ⟨by simp [Wire.Healthy, hwrites], hreads⟩
  · have hcheck := hall e he
    simp [hf] at hcheck

end Link
end Chat
