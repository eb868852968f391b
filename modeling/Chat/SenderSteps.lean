import Chat.Sender
import Chat.Lib.Transition

/-! The sender client one call of `send` or `receive` at a time, as other programs take their turns
in between. -/
namespace Chat
open Transition

namespace Sender

/-- Before which call of `send` or `receive` the client is. -/
inductive Pc
  | login
  | loginReply
  | command
  | response (cmd : Command)
  | ended
  deriving DecidableEq

/-- The client waits in `receive`. -/
def Pc.reading : Pc → Bool
  | .loginReply | .response _ => true
  | _ => false

structure State where
  client : Client
  pc : Pc := .login
  fault : Option Fault := none

/-- What a step does on the connection. -/
inductive Action
  | sent (msg : Message) (ok : Bool)
  | got (resp : Option Message)
  | fault (f : Fault)

/-- The client goes on at `pc` if its `send` succeeds. -/
def send (c : Client) (msg : Message) (notSent : Bytes) (pc : Pc) : Action × State :=
  let (ok, conn) := c.conn.send msg
  (.sent msg ok,
    if ok then { client := { c with conn }, pc }
    else { client := { c with conn }.fail notSent, pc := .ended })

/-- The client goes on with `k` if its `receive` succeeds. -/
def receive (c : Client) (buffer notReceived : Bytes) (k : Message → Client → State) :
    Action × State :=
  match c.receive buffer with
  | .error f => (.fault f, { client := c, pc := .ended, fault := some f })
  | .ok (none, c) => (.got none, { client := c.fail notReceived, pc := .ended })
  | .ok (some resp, c) => (.got (some resp), k resp c)

/-- What `main` does with the response to its login. -/
def welcome (resp : Message) (c : Client) : Client :=
  if resp.tag = tagErr then c.fail (cString resp.data) else c

/-- What the loop does with the response to a command. -/
def finish (cmd : Command) (resp : Message) (c : Client) : Client :=
  let c := if resp.tag = tagErr then c.cerr (cString resp.data ++ cmd.errEnd) else c
  if cmd = .quit then { c with exit := some 0 } else c

theorem finish_frame (cmd : Command) (resp : Message) (c : Client) :
    (finish cmd resp c).conn = c.conn ∧ (finish cmd resp c).stdin = c.stdin ∧
      (finish cmd resp c).exit = if cmd = .quit then some 0 else c.exit := by
  by_cases herr : resp.tag = tagErr <;> by_cases hquit : cmd = .quit <;>
    simp [finish, herr, hquit, Client.cerr]

def next (username : Bytes) (s : State) (buffer : Bytes) : Option (Action × State) :=
  match s.pc with
  | .login => some (send s.client ⟨tagSlogin, username⟩ (str "Send slogin not successful.\n")
      .loginReply)
  | .loginReply =>
    some (receive s.client buffer (str "Received slogin not successful.\n") fun resp c =>
      { client := welcome resp c, pc := if resp.tag = tagErr then .ended else .command })
  | .command =>
    let (userCommand, c) := s.client.getline
    let cmd := command userCommand
    some (send c cmd.message cmd.notSent (.response cmd))
  | .response cmd => some (receive s.client buffer cmd.notReceived fun resp c =>
      { client := finish cmd resp c, pc := if cmd = .quit then .ended else .command })
  | .ended => none

def Step (username : Bytes) (s : State) (a : Action) (s' : State) : Prop :=
  ∃ buffer, next username s buffer = some (a, s')

/-- Where the client is between two iterations of its loop. -/
def between (c : Client) : State :=
  { client := c, pc := if c.exit.isNone then .command else .ended }

/-- The steps from `s` come to where a part of the program that gives `r` ends. -/
def Reaches (username : Bytes) (s : State) (r : Except Fault Client) : Prop :=
  ∃ as s', Run (Step username) s as s' ∧ match r with
    | .ok c => s' = between c
    | .error f => s'.fault = some f

variable {username buffer : Bytes} {c : Client} {s : State} {r : Except Fault Client}

private theorem Reaches.refl (c : Client) : Reaches username (between c) (.ok c) :=
  ⟨[], _, .nil, rfl⟩

private theorem Reaches.bind {g : Client → Except Fault Client} (h : Reaches username s r)
    (hg : ∀ c, r = .ok c → Reaches username (between c) (g c)) : Reaches username s (r >>= g) := by
  obtain ⟨as, s', hrun, hs'⟩ := h
  cases r with
  | error f => exact ⟨as, s', hrun, hs'⟩
  | ok c =>
    obtain rfl : s' = between c := hs'
    obtain ⟨as', s'', hrun', hs''⟩ := hg c rfl
    exact ⟨as ++ as', s'', hrun.trans hrun', hs''⟩

/-- A call is a step that sends and a step that receives. -/
private theorem call_reaches {msg : Message} {notSent notReceived : Bytes} {pc : Pc}
    {k : Message → Client → State} {f : Message → Client → Client} (hlive : c.exit = none)
    (hsend : ∀ buffer, next username s buffer = some (send c msg notSent pc))
    (hreceive : ∀ c buffer,
      next username { client := c, pc } buffer = some (receive c buffer notReceived k))
    (hk : ∀ resp c, c.exit = none → k resp c = between (f resp c)) :
    Reaches username s (do
      let (resp, c) ← c.call buffer msg notSent notReceived
      match resp with
      | none => pure c
      | some resp => pure (f resp c)) := by
  unfold Client.call
  cases hsent : c.conn.send msg with
  | mk ok conn =>
    have hfirst := hsend buffer
    rw [send, hsent] at hfirst
    cases ok with
    | false => exact ⟨_, _, .single ⟨buffer, hfirst⟩, rfl⟩
    | true =>
      have hsecond := hreceive { c with conn } buffer
      rw [receive] at hsecond
      cases hgot : Client.receive { c with conn } buffer with
      | error f =>
        rw [hgot] at hsecond
        exact ⟨_, _, .cons ⟨buffer, hfirst⟩ (.single ⟨buffer, hsecond⟩),
          by simp [hgot, Bind.bind, Except.bind]⟩
      | ok p =>
        obtain ⟨resp, c'⟩ := p
        obtain ⟨-, -, conn', -, -, rfl⟩ := Client.receive_ok hgot
        rw [hgot] at hsecond
        refine ⟨_, _, .cons ⟨buffer, hfirst⟩ (.single ⟨buffer, hsecond⟩), ?_⟩
        cases resp with
        | none => simp [hgot, Bind.bind, Except.bind, pure, Except.pure, between, Client.fail]
        | some resp =>
          simpa [hgot, Bind.bind, Except.bind, pure, Except.pure] using
            hk resp { c with conn := conn' } hlive

private theorem body_reaches (hlive : c.exit = none) :
    Reaches username (between c) (body buffer c) := by
  have hpc : between c = { client := c, pc := .command } := by simp [between, hlive]
  have hlive' : c.getline.2.exit = none := by rwa [c.getline_eq]
  have hk (resp : Message) (c' : Client) (hc' : c'.exit = none) :
      ({ client := finish (command c.getline.1) resp c',
         pc := if command c.getline.1 = .quit then .ended else .command } : State) =
        between (finish (command c.getline.1) resp c') := by
    rw [between, (finish_frame _ resp c').2.2, hc']
    by_cases hquit : command c.getline.1 = .quit <;> simp [hquit]
  rw [hpc]
  exact @call_reaches username buffer c.getline.2 _ (command c.getline.1).message _ _
    (.response (command c.getline.1)) _ (finish (command c.getline.1)) hlive' (fun _ => rfl)
    (fun _ _ => rfl) hk

private theorem loop_reaches (c : Client) (buffer : ℕ → Bytes) (n : ℕ) :
    Reaches username (between c) (c.loop body buffer n) := by
  induction n with
  | zero => exact .refl c
  | succ n ih =>
    refine ih.bind fun c' _ => ?_
    cases hexit : c'.exit with
    | none => exact body_reaches hexit
    | some status => exact .refl c'

/-- What `main` does the steps do. -/
theorem main_reaches {conn : Connection} (hopen : conn.isOpen = true) (stdin : List Bytes)
    (buffer : ℕ → Bytes) (n : ℕ) :
    Reaches username { client := { conn, stdin } } (main conn username stdin buffer n) := by
  have hgreet : Reaches username { client := { conn, stdin } } (do
      let (resp, c) ← Client.call { conn, stdin } (buffer 0) ⟨tagSlogin, username⟩
        (str "Send slogin not successful.\n") (str "Received slogin not successful.\n")
      match resp with
      | none => pure c
      | some resp => pure (welcome resp c)) := by
    refine call_reaches rfl (fun _ => rfl) (fun _ _ => rfl) fun resp c hlive => ?_
    by_cases herr : resp.tag = tagErr <;> simp [welcome, between, herr, hlive, Client.fail]
  have hmain := hgreet.bind (fun c _ => show Reaches username (between c)
      (if c.exit.isNone then c.loop body (fun k => buffer (k + 1)) n else pure c) by
    cases c.exit with
    | none => exact loop_reaches c _ n
    | some status => exact .refl c)
  convert hmain using 1
  simp only [main, hopen, if_true]
  cases hcall : Client.call { conn, stdin } (buffer 0) ⟨tagSlogin, username⟩
    (str "Send slogin not successful.\n") (str "Received slogin not successful.\n") with
  | error f => rfl
  | ok p =>
    obtain ⟨resp, c⟩ := p
    cases resp with
    | none =>
      have hexit := Client.call_none hcall
      simp [Bind.bind, Except.bind, pure, Except.pure, hexit]
    | some resp =>
      obtain ⟨conn', rfl, -⟩ := Client.call_some hcall
      by_cases herr : resp.tag = tagErr
      · simp [Bind.bind, Except.bind, pure, Except.pure, welcome, herr, Client.fail]
      · simp [Bind.bind, Except.bind, pure, Except.pure, welcome, herr]

/-- A message that fits goes out whole. -/
theorem send_fits {msg : Message} (h : msg.Fits) (hwire : c.conn.wire.Healthy) (notSent : Bytes)
    (pc : Pc) :
    ∃ conn, send c msg notSent pc = (.sent msg true, { client := { c with conn }, pc }) ∧
      conn.wire.Healthy ∧ conn.wire.written = c.conn.wire.written ++ Connection.encode msg ∧
      conn.mFdbuf = c.conn.mFdbuf := by
  obtain ⟨r, hsend⟩ := c.conn.send_wire msg
  obtain ⟨hsent, hhealthy, hwritten⟩ := h.send hwire
  refine ⟨{ c.conn with wire := (c.conn.wire.send msg).2, mLastResult := r }, ?_, hhealthy,
    hwritten, rfl⟩
  simp [send, hsend, hsent]

theorem receive_fits {msg : Message} (h : msg.Fits) (htag : msg.tag ≠ tagDelivery) {more : Bytes}
    (hst : c.conn.mFdbuf.stream = Connection.encode msg ++ more) (notReceived : Bytes)
    (k : Message → Client → State) :
    ∃ conn, receive c buffer notReceived k =
        (.got (some msg.received), k msg.received { c with conn }) ∧
      conn.wire = c.conn.wire ∧ conn.mFdbuf.broken = c.conn.mFdbuf.broken := by
  obtain ⟨conn, hrec, -, hbroken⟩ := h.receive htag hst buffer {}
  refine ⟨conn, ?_, (Connection.receive_frame hrec).2.1, hbroken⟩
  simp [receive, Client.receive, hrec, Bind.bind, Except.bind, pure, Except.pure]

end Sender
end Chat
