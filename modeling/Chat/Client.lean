import Chat.Codec

/-! What the two client programs share: a connection, the standard streams, and one request
with its response. -/
namespace Chat
open Lines

/-- A running client. `stdin` holds the lines still to be read, and `exit` the status with which
the program has ended. -/
structure Client where
  conn : Connection
  stdin : List Bytes := []
  stdout : Bytes := []
  stderr : Bytes := []
  exit : Option ℕ := none

namespace Client

/-- `std::getline` from standard input: at its end the line is empty. -/
def getline (c : Client) : Bytes × Client :=
  match c.stdin with
  | [] => ([], c)
  | line :: stdin => (line, { c with stdin })

def cerr (c : Client) (text : Bytes) : Client := { c with stderr := c.stderr ++ text }

/-- An error message and `exit(1)`. -/
def fail (c : Client) (text : Bytes) : Client := { c.cerr text with exit := some 1 }

/-- One `receive`; `none` where it returned false. -/
def receive (c : Client) (buffer : Bytes) : Except Fault (Option Message × Client) := do
  let (received, msg, conn) ← c.conn.receive buffer {}
  pure (if received then some msg else none, { c with conn })

/-- A request and its response; the client ends where it cannot send or receive. A failed write stands
for an error other than `EPIPE`: the clients do not ignore `SIGPIPE`, which would end them there. -/
def call (c : Client) (buffer : Bytes) (msg : Message) (notSent notReceived : Bytes) :
    Except Fault (Option Message × Client) :=
  let (sent, conn) := c.conn.send msg
  if sent then do
    let (resp, c) ← { c with conn }.receive buffer
    match resp with
    | some resp => pure (some resp, c)
    | none => pure (none, c.fail notReceived)
  else pure (none, { c with conn }.fail notSent)

/-- The client after `n` iterations of its `while (1)`, or where it has ended before. -/
def loop (body : Bytes → Client → Except Fault Client) (buffer : ℕ → Bytes) (c : Client) :
    ℕ → Except Fault Client
  | 0 => .ok c
  | n + 1 => do
    let c ← loop body buffer c n
    if c.exit.isNone then body (buffer n) c else pure c

variable {c c' : Client} {buffer : Bytes} {msg : Message}

/-- At the end of the input the line is empty and the input stays so. -/
theorem getline_eq (c : Client) : c.getline = (c.stdin.headD [], { c with stdin := c.stdin.tail }) := by
  obtain ⟨conn, stdin, stdout, stderr, exit⟩ := c
  cases stdin <;> rfl

theorem receive_ok {resp : Option Message} (h : c.receive buffer = .ok (resp, c')) :
    ∃ ok m conn, c.conn.receive buffer {} = .ok (ok, m, conn) ∧
      resp = (if ok then some m else none) ∧ c' = { c with conn } := by
  obtain ⟨⟨ok, m, conn⟩, hrec, h⟩ := ok_of_bind h
  obtain ⟨rfl, rfl⟩ := Prod.mk.inj (Except.ok.inj h)
  exact ⟨ok, m, conn, hrec, rfl, rfl⟩

/-- A call that gets its response has sent the request whole and taken one line. -/
theorem call_some {notSent notReceived : Bytes} {resp : Message}
    (h : c.call buffer msg notSent notReceived = .ok (some resp, c')) :
    ∃ conn, c' = { c with conn } ∧ (c.conn.wire.send msg).1 = true ∧
      conn.wire = (c.conn.wire.send msg).2 ∧
      (c.conn.mFdbuf.broken = false →
        conn.mFdbuf.stream = dropLine newline lineMax c.conn.mFdbuf.stream ∧
          conn.mFdbuf.broken = false) := by
  obtain ⟨r, hsend⟩ := c.conn.send_wire msg
  rw [call, hsend] at h
  cases hsent : (c.conn.wire.send msg).1 with
  | false => simp [hsent, pure, Except.pure] at h
  | true =>
    generalize hconn : ({ c.conn with wire := (c.conn.wire.send msg).2, mLastResult := r } :
      Connection) = conn₁ at h
    simp only [hsent, if_true] at h
    obtain ⟨⟨got, c₁⟩, hrec, h⟩ := ok_of_bind h
    obtain ⟨ok, m, conn, hreceive, rfl, rfl⟩ := receive_ok hrec
    cases ok with
    | false => cases h
    | true =>
      obtain ⟨-, rfl⟩ := Prod.mk.inj (Except.ok.inj h)
      refine ⟨conn, rfl, rfl, ?_, fun hb => ?_⟩
      · rw [(Connection.receive_frame hreceive).2.1, ← hconn]
      · have hbuf : conn₁.mFdbuf = c.conn.mFdbuf := by rw [← hconn]
        obtain ⟨hst, hbr, -⟩ := Connection.receive_takes (by rw [hbuf, hb]) hreceive
        rw [hbuf] at hst
        exact ⟨hst, hbr⟩

/-- A call changes the wire by what its message does, and ends the client if there is no response. -/
theorem call_wire {notSent notReceived : Bytes} {got : Option Message}
    (h : c.call buffer msg notSent notReceived = .ok (got, c')) :
    c'.stdin = c.stdin ∧ c'.conn.wire = (c.conn.wire.send msg).2 ∧
      c'.exit = if got.isSome then c.exit else some 1 := by
  obtain ⟨r, hsend⟩ := c.conn.send_wire msg
  rw [call, hsend] at h
  cases hsent : (c.conn.wire.send msg).1 with
  | false =>
    simp only [hsent] at h
    obtain ⟨rfl, rfl⟩ := Prod.mk.inj (Except.ok.inj h)
    exact ⟨rfl, rfl, rfl⟩
  | true =>
    simp only [hsent, if_true] at h
    obtain ⟨⟨resp, c₁⟩, hrec, h⟩ := ok_of_bind h
    obtain ⟨ok, m, conn, hreceive, -, rfl⟩ := receive_ok hrec
    have hwire : conn.wire = (c.conn.wire.send msg).2 := (Connection.receive_frame hreceive).2.1
    cases resp with
    | none =>
      obtain ⟨rfl, rfl⟩ := Prod.mk.inj (Except.ok.inj h)
      exact ⟨rfl, hwire, rfl⟩
    | some resp =>
      obtain ⟨rfl, rfl⟩ := Prod.mk.inj (Except.ok.inj h)
      exact ⟨rfl, hwire, rfl⟩

theorem call_none {notSent notReceived : Bytes}
    (h : c.call buffer msg notSent notReceived = .ok (none, c')) : c'.exit = some 1 :=
  (call_wire h).2.2

/-- A client that survives a request goes on with its response. -/
theorem call_continues {notSent notReceived : Bytes} {got : Option Message} {c₁ : Client}
    {go : Message → Except Fault Client}
    (hcall : c.call buffer msg notSent notReceived = .ok (got, c₁))
    (h : (match got with
      | none => (pure c₁ : Except Fault Client)
      | some resp => go resp) = .ok c') (hlive : c'.exit = none) :
    ∃ resp conn, go resp = .ok c' ∧ c₁ = { c with conn } ∧
      conn.wire = (c.conn.wire.send msg).2 ∧
      (c.conn.mFdbuf.broken = false →
        conn.mFdbuf.stream = dropLine newline lineMax c.conn.mFdbuf.stream ∧
          conn.mFdbuf.broken = false) := by
  cases got with
  | none =>
    obtain rfl : c₁ = c' := Except.ok.inj h
    rw [call_none hcall] at hlive
    cases hlive
  | some resp =>
    obtain ⟨conn, hc₁, -, hwire, hread⟩ := call_some hcall
    exact ⟨resp, conn, h, hc₁, hwire, hread⟩

/-- A client that survives a response goes on as it does where the response is no `err`. -/
theorem accepted {resp : Message} {text : Bytes} {go : Except Fault Client}
    (h : (if resp.tag = tagErr then pure (c.fail text) else go) = .ok c')
    (hlive : c'.exit = none) : go = .ok c' := by
  by_cases herr : resp.tag = tagErr
  · rw [if_pos herr] at h
    obtain rfl := Except.ok.inj h
    cases hlive
  · rwa [if_neg herr] at h

end Client
end Chat
