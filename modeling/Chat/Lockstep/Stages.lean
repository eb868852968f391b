import Chat.Link

/-! The stages of an exchange between a sender client and its session: one request, then its one response. -/
namespace Chat
open Transition

theorem leavesFirst_of_append {ms ms' : List (Option Message)}
    (h : leavesFirst (ms ++ ms') = false) : leavesFirst ms = false := by
  rw [leavesFirst_append, Bool.or_eq_false_iff] at h
  exact h.1

/-- What a session hears of some requests has their tags. -/
theorem leavesFirst_received (reqs : List Message) :
    leavesFirst (reqs.map fun req => some req.received) = leavesFirst (reqs.map some) := by
  induction reqs with
  | nil => rfl
  | cons req reqs ih =>
    have htag : req.received.tag = req.tag := rfl
    simp [leavesFirst, isTag, ih, htag]

namespace Sender

/-- The requests that a client will still send for the lines up to a quit. -/
def pending (s : State) : List Message :=
  match s.pc with
  | .response .quit | .ended => []
  | _ => (s.client.stdin.takeWhile fun t => command t ≠ .quit).map fun t => (command t).message

theorem pending_response {s : State} {cmd : Command} (hpc : s.pc = .response cmd)
    (h : cmd ≠ .quit) : pending s =
      (s.client.stdin.takeWhile fun t => command t ≠ .quit).map fun t => (command t).message := by
  rw [pending, hpc]
  cases cmd with
  | quit => exact absurd rfl h
  | _ => rfl

/-- The next command is one of the pending ones, a quit, or the empty line after the input. -/
theorem leavesFirst_command {c : Client} {ms : List Message}
    (h : leavesFirst ((ms ++ pending { client := c, pc := .command }).map some) = false)
    (conn : Connection) :
    leavesFirst ((ms ++ (command c.getline.1).message ::
      pending ⟨{ c.getline.2 with conn }, .response (command c.getline.1), none⟩).map some) =
        false := by
  have hms : leavesFirst (ms.map some) = false := by
    rw [List.map_append] at h
    exact leavesFirst_of_append h
  have hlast {m : Message} (hm : leavesFirst [some m] = false) :
      leavesFirst ((ms ++ [m]).map some) = false := by
    rw [List.map_append, leavesFirst_append, hms]
    simpa using fun _ => hm
  unfold Client.getline
  cases hstdin : c.stdin with
  | nil =>
    have hend : command [] = .sendall [] := by decide
    have hnone : pending { client := { c with conn }, pc := .response (.sendall []) } = [] := by
      simp [pending, hstdin]
    simp only [hend, hnone]
    exact hlast (by decide)
  | cons t ts =>
    by_cases hquit : command t = .quit
    · simp only [hquit]
      exact hlast (by decide)
    · rw [pending_response rfl hquit]
      simpa [pending, hstdin, hquit] using h

theorem mem_command {t : Bytes} {b : UInt8} (h : b ∈ (command t).message.data) : b ∈ t := by
  unfold command at h
  split at h
  · exact List.mem_of_mem_drop h
  · split at h
    · cases h
    · split at h
      · cases h
      · exact h

theorem fits_of_tag {tag data : Bytes}
    (htag : Plain tag ∧ tag ≠ tagQuit ∧ tag ≠ tagLeave ∧ tag ≠ tagDelivery)
    (hnewline : newline ∉ data) (hnul : 0 ∉ data)
    (hlength : (Connection.encode ⟨tag, data⟩).length ≤ 254) :
    Message.Fits ⟨tag, data⟩ := by
  have hmsg : Message.Ordinary ⟨tag, data⟩ :=
    ⟨htag.1, htag.2.1, htag.2.2.1, htag.2.2.2, hnewline, hnul⟩
  exact hmsg.fits hlength

/-- A line of input gives a message that fits, if that is short enough. -/
theorem command_fits {t : Bytes} (hnewline : newline ∉ t) (hnul : 0 ∉ t)
    (hlength : (Connection.encode (command t).message).length ≤ 254) :
    (command t).message.Fits := by
  have hnewline' : newline ∉ (command t).message.data := fun h => hnewline (mem_command h)
  have hnul' : 0 ∉ (command t).message.data := fun h => hnul (mem_command h)
  generalize command t = cmd at hlength hnewline' hnul'
  cases cmd with
  | join roomName =>
    exact fits_of_tag (by decide : Plain tagJoin ∧ _) hnewline' hnul' hlength
  | leave => exact (by decide : (⟨tagLeave, []⟩ : Message).Fits)
  | quit => exact (by decide : (⟨tagQuit, []⟩ : Message).Fits)
  | sendall text =>
    exact fits_of_tag (by decide : Plain tagSendall ∧ _) hnewline' hnul' hlength

end Sender

namespace Link

/-- Session `i` has taken request number `k`, and sent `resp` for it. -/
def Answers (i : Sid) (es : List Event) (k : ℕ) (req resp : Message) : Prop :=
  ⟨i, k, .login (some req.received)⟩ ∈ es ∧ ⟨i, k, .loginReply resp true⟩ ∈ es ∨
    ⟨i, k, .receive (some req.received)⟩ ∈ es ∧ ⟨i, k, .reply resp true⟩ ∈ es

theorem Answers.mono {i : Sid} {es : List Event} {k : ℕ} {req resp : Message}
    (h : Answers i es k req resp) (es' : List Event) : Answers i (es ++ es') k req resp :=
  h.imp (And.imp (List.mem_append_left _) (List.mem_append_left _))
    (And.imp (List.mem_append_left _) (List.mem_append_left _))

/-- The client waits for the response to `req`, which it has sent after `before`. -/
inductive Waits (username : Bytes) : Sender.Pc → List Message → Message → Prop
  | login : Waits username .loginReply [] ⟨tagSlogin, username⟩
  | response {before} (cmd : Command) : before ≠ [] →
      Waits username (.response cmd) before cmd.message

/-- The session is at work on the request that it took as number `k`. -/
def Works (l : Link) (i : Sid) (es : List Event) (k : ℕ) (req : Message) : Prop :=
  let t := l.server.thread i
  t.Greeting ∧ l.client.pc = .loginReply ∧ ⟨i, k, .login (some req.received)⟩ ∈ es ∨
    t.Serving (req.tag = tagQuit) ∧ l.client.pc ≠ .loginReply ∧
      ⟨i, k, .receive (some req.received)⟩ ∈ es

/-- Nothing is under way, and the session has taken all of the requests. -/
structure Resting (l : Link) (i : Sid) (reqs : List Message) : Prop where
  toServer : l.toServer = []
  toClient : l.toClient = []
  ready : (l.server.thread i).Ready
  calls : (l.server.thread i).calls = reqs.length

/-- The response to the last request is under way. -/
structure Answered (l : Link) (i : Sid) (es : List Event) (before : List Message)
    (req resp : Message) : Prop where
  toServer : l.toServer = []
  toClient : l.toClient = Connection.encode resp
  fits : resp.Fits
  tag : resp.tag ≠ tagDelivery
  welcome : l.client.pc = .loginReply → resp.tag ≠ tagErr
  answers : Answers i es before.length req resp
  session : if req.tag = tagQuit then (l.server.thread i).Over else (l.server.thread i).Ready
  calls : (l.server.thread i).calls = before.length + 1

/-- The stages of an exchange. The client has sent the requests of the first index, and got as
many responses as the second index says. -/
inductive Stage (i : Sid) (username : Bytes) (es : List Event) (l : Link) : List Message → ℕ → Prop
  | rest {reqs} : l.client.pc = .login ∧ reqs = [] ∨ l.client.pc = .command ∧ reqs ≠ [] →
      l.Resting i reqs → Stage i username es l reqs reqs.length
  | asking {before req} : Waits username l.client.pc before req →
      l.toServer = Connection.encode req → l.toClient = [] → (l.server.thread i).Ready →
      (l.server.thread i).calls = before.length →
      Stage i username es l (before ++ [req]) before.length
  | serving {before req} : Waits username l.client.pc before req →
      l.toServer = [] → l.toClient = [] → l.Works i es before.length req →
      (l.server.thread i).calls = before.length + 1 →
      Stage i username es l (before ++ [req]) before.length
  | answered {before req resp} : Waits username l.client.pc before req →
      l.Answered i es before req resp →
      Stage i username es l (before ++ [req]) before.length
  | finished {reqs} : l.client.pc = .ended → l.toServer = [] → l.toClient = [] →
      (l.server.thread i).Over → (l.server.thread i).calls = reqs.length →
      Stage i username es l reqs reqs.length

structure Inv (i : Sid) (username : Bytes) (ls : List Label) (l : Link) : Prop where
  alive : l.server.fault = none
  intact : l.client.fault = none
  client : l.client.client.conn.Reliable
  session : (l.server.thread i).conn.Reliable
  stdin : ∀ t ∈ l.client.client.stdin, (Sender.command t).message.Fits
  fits : ∀ req ∈ requests ls, req.Fits ∧ req.tag ≠ tagDelivery
  heard : heard i (served ls) = (((requests ls).take (l.server.thread i).calls).drop 1).map
    fun req => some req.received
  leaves : leavesFirst ((((requests ls).drop 1) ++ Sender.pending l.client).map some) = false
  login : ∀ n, ⟨i, n, .login none⟩ ∉ served ls
  responses : ∀ k m, (responses ls)[k]? = some m → ∃ req resp, (requests ls)[k]? = some req ∧
    m = some resp.received ∧ Answers i (served ls) k req resp
  stage : Stage i username (served ls) l (requests ls) (Link.responses ls).length

variable {i : Sid} {username : Bytes} {l : Link}

theorem Waits.reading {pc : Sender.Pc} {before : List Message} {req : Message}
    (h : Waits username pc before req) : pc.reading = true := by
  cases h <;> rfl

theorem Works.not_reading {es : List Event} {k : ℕ} {req : Message} (h : l.Works i es k req) :
    (l.server.thread i).pc.reading = false := by
  rcases h with ⟨⟨hpc, -⟩, -⟩ | ⟨⟨-, hpc⟩, -⟩
  · rw [hpc]
    rfl
  · generalize (l.server.thread i).pc = pc at hpc
    cases pc <;> first | rfl | exact hpc.elim

end Link
end Chat
