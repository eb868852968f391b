import Chat.SenderSteps
import Chat.Serving

/-! A sender client, the server with all of its sessions, and the two byte streams between the
client and its session. What a descriptor will bring is given with it from the start, so the streams
say when: a call of `receive` returns only when the bytes that it takes have been written. -/
namespace Chat
open Transition Lines

/-- A connection on which no write fails, and no read. -/
structure Connection.Reliable (conn : Connection) : Prop where
  writes : conn.wire.Healthy
  reads : conn.mFdbuf.broken = false

/-- The next `receive` on `rp` has its line when the bytes `sent` have come: it takes no other, and
there is an end of file only where the peer has `closed`. -/
def Supplied (rp : Rio) (sent : Bytes) (closed : Bool) : Prop :=
  rp.nextLine <+: sent ∧
    (newline ∈ rp.nextLine ∨ rp.nextLine.length = lineMax ∨ closed = true ∧ rp.nextLine = sent)

instance (rp : Rio) (sent : Bytes) (closed : Bool) : Decidable (Supplied rp sent closed) :=
  inferInstanceAs (Decidable (_ ∧ _))

theorem not_supplied_nil (rp : Rio) : ¬ Supplied rp [] false := by
  rintro ⟨hpre, hend⟩
  rw [List.prefix_nil.mp hpre] at hend
  simp [lineMax, maxLen] at hend

/-- A line that is under way alone is what the call takes. -/
theorem Supplied.line {rp : Rio} {msg : Message} {closed : Bool} (hfits : msg.Fits)
    (h : Supplied rp (Connection.encode msg) closed) :
    rp.nextLine = Connection.encode msg ∧ ∃ more, rp.stream = Connection.encode msg ++ more := by
  have hline := hfits.whole.eq_of_prefix h.1 (h.2.imp_right fun h => h.imp_right And.right)
  refine ⟨hline, dropLine newline lineMax rp.stream, ?_⟩
  rw [← hline]
  exact (takeLine_append_dropLine newline lineMax rp.stream).symm

/-- What is under way after a step, which if it is `reading` waits for its line. -/
def remaining (reading : Bool) (rp : Rio) (sent : Bytes) (closed : Bool) : Option Bytes :=
  if reading then
    if Supplied rp sent closed then some (sent.drop rp.nextLine.length) else none
  else some sent

/-- What a step has written. -/
def written (before after : Connection) : Bytes :=
  after.wire.written.drop before.wire.written.length

/-- The client, the server, and the bytes under way between the client and its session. -/
structure Link where
  client : Sender.State
  server : Server := {}
  toServer : Bytes := []
  toClient : Bytes := []

namespace Link

inductive Turn
  | client (buffer : Bytes)
  | server (c : Sched)

inductive Label
  | client (a : Sender.Action)
  | server (e : Event)

/-- The session's end is closed by the session, or with the whole server. -/
def sessionClosed (l : Link) (i : Sid) : Bool :=
  l.server.fault.isSome || 0 < (l.server.thread i).conn.closes

/-- Session `i` is that of the client of `username`. -/
def next (i : Sid) (username : Bytes) (l : Link) : Turn → Option (Label × Link)
  | .client buffer => do
    let (a, client) ← Sender.next username l.client buffer
    let conn := l.client.client.conn
    let toClient ← remaining l.client.pc.reading conn.mFdbuf l.toClient (l.sessionClosed i)
    some (.client a, { l with
      client, toClient, toServer := l.toServer ++ written conn client.client.conn })
  | .server c => do
    let (e, server) ← l.server.next c
    let t := l.server.thread i
    let toServer ← remaining (e.session = i && t.pc.reading) t.conn.mFdbuf l.toServer
      (l.client.pc = .ended)
    some (.server e, { l with
      server, toServer, toClient := l.toClient ++ written t.conn (server.thread i).conn })

def Step (i : Sid) (username : Bytes) (l : Link) (lab : Label) (l' : Link) : Prop :=
  ∃ turn, l.next i username turn = some (lab, l')

/-- The requests that the client has sent. -/
def requests (ls : List Label) : List Message :=
  ls.filterMap fun
    | .client (.sent msg true) => some msg
    | _ => none

/-- What the client's calls of `receive` gave; `none` is a failure. -/
def responses (ls : List Label) : List (Option Message) :=
  ls.filterMap fun
    | .client (.got resp) => some resp
    | _ => none

def served (ls : List Label) : List Event :=
  ls.filterMap fun
    | .server e => some e
    | _ => none

@[simp] theorem requests_append (ls ls' : List Label) :
    requests (ls ++ ls') = requests ls ++ requests ls' :=
  List.filterMap_append

@[simp] theorem responses_append (ls ls' : List Label) :
    responses (ls ++ ls') = responses ls ++ responses ls' :=
  List.filterMap_append

@[simp] theorem served_append (ls ls' : List Label) :
    served (ls ++ ls') = served ls ++ served ls' :=
  List.filterMap_append

variable {i : Sid} {username : Bytes} {l l' : Link} {lab : Label} {ls : List Label}

/-- A step of the client or of one thread of the server, with what it takes and what it writes. -/
theorem Step.turn (h : l.Step i username lab l') :
    (∃ a buffer client toClient, lab = .client a ∧
      Sender.next username l.client buffer = some (a, client) ∧
      remaining l.client.pc.reading l.client.client.conn.mFdbuf l.toClient (l.sessionClosed i) =
        some toClient ∧
      l' = { l with
        client, toClient
        toServer := l.toServer ++ written l.client.client.conn client.client.conn }) ∨
    ∃ e c server toServer, lab = .server e ∧ l.server.next c = some (e, server) ∧
      remaining (e.session = i && (l.server.thread i).pc.reading)
        (l.server.thread i).conn.mFdbuf l.toServer (l.client.pc = .ended) = some toServer ∧
      l' = { l with
        server, toServer
        toClient := l.toClient ++ written (l.server.thread i).conn (server.thread i).conn } := by
  obtain ⟨turn, hturn⟩ := h
  cases turn with
  | client buffer =>
    cases hnext : Sender.next username l.client buffer with
    | none => simp [next, hnext] at hturn
    | some p =>
      cases hrem : remaining l.client.pc.reading l.client.client.conn.mFdbuf l.toClient
          (l.sessionClosed i) with
      | none => simp [next, hnext, hrem] at hturn
      | some toClient =>
        obtain ⟨rfl, rfl⟩ := by simpa [next, hnext, hrem] using hturn
        exact .inl ⟨p.1, buffer, p.2, toClient, rfl, hnext, rfl, rfl⟩
  | server c =>
    cases hnext : l.server.next c with
    | none => simp [next, hnext] at hturn
    | some p =>
      cases hrem : remaining (p.1.session = i && (l.server.thread i).pc.reading)
          (l.server.thread i).conn.mFdbuf l.toServer (l.client.pc = .ended) with
      | none => simp [next, hnext, hrem] at hturn
      | some toServer =>
        obtain ⟨rfl, rfl⟩ := by simpa [next, hnext, hrem] using hturn
        exact .inr ⟨p.1, c, p.2, toServer, rfl, hnext, hrem, rfl⟩

/-- The steps of the server are a run of the server. -/
theorem served_run {client : Sender.State} (h : Run (Step i username) { client } ls l) :
    Run Server.Step {} (served ls) l.server := by
  refine h.invariant (fun ls l => Run Server.Step {} (served ls) l.server) .nil ?_
  intro ls l lab l' _ ih hs
  rcases hs.turn with ⟨a, buffer, client, toClient, rfl, -, -, rfl⟩ |
    ⟨e, c, server, toServer, rfl, hnext, -, rfl⟩
  · simpa [served] using ih
  · rw [served_append]
    exact .snoc ih ⟨c, hnext⟩

end Link

end Chat
