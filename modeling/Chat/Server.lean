import Chat.Room

/-! `server.cpp`: the worker threads of any number of clients, interleaved step by step. -/
namespace Chat
open Traversal

inductive Role
  | sender
  | receiver
  deriving DecidableEq

/-- Where a thread is in a function that holds one lock for all of its body. -/
inductive Guarded (α : Type)
  | acquire
  | body
  | release (result : α)
  deriving DecidableEq

/-- Where a thread is in `broadcast_message`; `it` is the loop's iterator. -/
inductive BroadcastPc
  | acquire
  | start
  | loop (it : Option Sid)
  | enqueue (u : Sid) (msg : Message) (pc : EnqueuePc)

/-- How a session goes on after a reply: with its loop, by `break`, or by `return`. -/
inductive Resume
  | loop
  | close
  | ret
  deriving DecidableEq

inductive Pc
  | unborn
  | login
  | loginReply (accepted : Bool)
  | newUser
  | receive
  | removeMember (pc : Guarded Unit)
  | findOrCreateRoom (pc : Guarded RoomId)
  | addMember (pc : Guarded Unit)
  | memberExists
  | broadcast (pc : BroadcastPc)
  | reply (resp : Message) (resume : Resume)
  | dequeue (pc : DequeuePc Message)
  | deliver (msg : Message)
  | close
  | done

/-- A worker thread: its position and local variables. `serial` numbers the messages that
`chat_with_sender` or `chat_with_receiver` has received. -/
structure Thread where
  conn : Connection := {}
  role : Role := .sender
  room : Option RoomId := none
  msg : Message := {}
  serial : ℕ := 0
  pc : Pc := .unborn

/-- What a step takes from outside the program: the stale content of `receive`'s buffer, and
whether a wait times out. -/
structure Choice where
  buffer : Bytes := []
  timedOut : Bool := false

def loginSuccess (tag : Bytes) : Message :=
  ⟨tagOk, if tag = tagSlogin then str "Sender logged in"
    else if tag = tagRlogin then str "Receiver logged in" else str "Unknown login type"⟩

def loginError : Message := ⟨tagErr, str "Login unsuccessful"⟩
def receiveError : Message := ⟨tagErr, str "Receive error"⟩
def quitOk : Message := ⟨tagOk, str "Quit successful"⟩
def joinOk : Message := ⟨tagOk, str "Join successful"⟩
def leaveOk : Message := ⟨tagOk, str "Leave successful"⟩
def leaveError : Message := ⟨tagErr, str "Leave unsuccessful, user isn't in the room"⟩
def sendallOk : Message := ⟨tagOk, str "Sendall successful"⟩
def sendallError : Message := ⟨tagErr, str "Sendall unsuccessful, user isn't in a room"⟩
def firstNotJoin : Message := ⟨tagErr, str "First message must be a join"⟩

/-- Where the branch for a received message begins. -/
def dispatch : Role → Option RoomId → Bytes → Pc
  | .sender, room, tag =>
    if tag = tagQuit then .reply quitOk .close
    else if tag = tagJoin then
      if room.isSome then .removeMember .acquire else .findOrCreateRoom .acquire
    else if tag = tagLeave then .memberExists
    else if room.isNone then .reply sendallError .loop else .memberExists
  | .receiver, _, tag =>
    if tag ≠ tagJoin then .reply firstNotJoin .ret else .findOrCreateRoom .acquire

namespace Thread

/-- The head of the session's `while (conn->is_open())`. -/
def loopHead (t : Thread) : Pc :=
  if t.conn.isOpen then
    match t.role with
    | .sender => .receive
    | .receiver => .dequeue .wait
  else .close

/-- A call through the local `room` pointer. -/
def deref (t : Thread) (k : RoomId → Action × Thread) : Action × Thread :=
  match t.room with
  | some r => k r
  | none => (.fault .nullRoom, t)

/-- The next action of thread `i` and the thread after it. -/
def next (i : Sid) (σ : Shared) (c : Choice) (t : Thread) : Option (Action × Thread) :=
  match t.pc with
  | .unborn => none
  | .login =>
    match t.conn.receive c.buffer {} with
    | .error f => some (.fault f, t)
    | .ok (false, _, conn) => some (.login none, { t with conn, pc := .loginReply false })
    | .ok (true, msg, conn) => some (.login (some msg),
        { t with conn, msg, pc := .loginReply (msg.tag = tagSlogin ∨ msg.tag = tagRlogin) })
  | .loginReply accepted =>
    let resp := if accepted then loginSuccess t.msg.tag else loginError
    let (sent, conn) := t.conn.send resp
    some (.loginReply resp sent, { t with conn, pc := if accepted then .newUser else .done })
  | .newUser =>
    let t := { t with role := if t.msg.tag = tagSlogin then .sender else .receiver }
    some (.newUser t.msg.data,
      { t with pc := match t.role with
        | .sender => t.loopHead
        | .receiver => .receive })
  | .receive =>
    match t.conn.receive c.buffer {} with
    | .error f => some (.fault f, t)
    | .ok (false, _, conn) => some (.receive none, { t with
        conn, serial := t.serial + 1
        pc := .reply receiveError (match t.role with
          | .sender => .close
          | .receiver => .ret) })
    | .ok (true, msg, conn) => some (.receive (some msg), { t with
        conn, msg, serial := t.serial + 1, pc := dispatch t.role t.room msg.tag })
  | .removeMember .acquire =>
    some <| t.deref fun r => (.lock (.room r), { t with pc := .removeMember .body })
  | .removeMember .body =>
    some <| t.deref fun r => (.erase r, { t with pc := .removeMember (.release ()) })
  | .removeMember (.release _) =>
    some <| t.deref fun r => (.unlock (.room r), { t with
      pc := if t.msg.tag = tagJoin then .findOrCreateRoom .acquire else .reply leaveOk .loop })
  | .findOrCreateRoom .acquire =>
    some (.lock .registry, { t with pc := .findOrCreateRoom .body })
  | .findOrCreateRoom .body =>
    let r := (σ.mRooms t.msg.data).getD σ.nRooms
    some (.findOrCreateRoom t.msg.data r, { t with pc := .findOrCreateRoom (.release r) })
  | .findOrCreateRoom (.release r) =>
    some (.unlock .registry, { t with room := some r, pc := .addMember .acquire })
  | .addMember .acquire =>
    some <| t.deref fun r => (.lock (.room r), { t with pc := .addMember .body })
  | .addMember .body =>
    some <| t.deref fun r => (.insert r, { t with pc := .addMember (.release ()) })
  | .addMember (.release _) =>
    some <| t.deref fun r => (.unlock (.room r), { t with pc := .reply joinOk .loop })
  | .memberExists =>
    some <| t.deref fun r =>
      let found : Bool := i ∈ (σ.room r).members
      (.memberExists r found, { t with
        pc := if t.msg.tag = tagLeave then
            if found then .removeMember .acquire else .reply leaveError .loop
          else if found then .broadcast .acquire else .reply sendallError .loop })
  | .broadcast .acquire =>
    some <| t.deref fun r =>
      (.broadcast r (σ.user i).username t.msg.data, { t with pc := .broadcast .start })
  | .broadcast .start =>
    some <| t.deref fun r =>
      (.begin r, { t with pc := .broadcast (.loop (first (σ.room r).members)) })
  | .broadcast (.loop none) =>
    some <| t.deref fun r => (.unlock (.room r), { t with pc := .reply sendallOk .loop })
  | .broadcast (.loop (some u)) =>
    some <| t.deref fun r =>
      let sender := (σ.user i).username
      if (σ.user u).username ≠ sender then
        let msg := delivery (σ.room r).roomName sender t.msg.data
        (.visit r u (some msg), { t with pc := .broadcast (.enqueue u msg .lock) })
      else
        (.visit r u none, { t with pc := .broadcast (.loop (after (σ.room r).members u)) })
  | .broadcast (.enqueue u msg pc) =>
    some <| t.deref fun r =>
      match pc.next msg with
      | (a, some pc) => (.queue u a, { t with pc := .broadcast (.enqueue u msg pc) })
      | (a, none) =>
        (.queue u a, { t with pc := .broadcast (.loop (after (σ.room r).members u)) })
  | .reply resp resume =>
    let (sent, conn) := t.conn.send resp
    let t := { t with conn }
    some (.reply resp sent, { t with
      pc := match resume with
        | .loop => t.loopHead
        | .close => .close
        | .ret => .done })
  | .dequeue (.ret none) => some (.queue i (.ret none), { t with pc := t.loopHead })
  | .dequeue (.ret (some msg)) => some (.queue i (.ret (some msg)), { t with
      pc := if msg.tag = tagErr then .reply receiveError .close else .deliver msg })
  | .dequeue pc =>
    match pc.next (σ.user i).mqueue c.timedOut with
    | .error f => some (.fault f, t)
    | .ok (a, some pc) => some (.queue i a, { t with pc := .dequeue pc })
    | .ok (_, none) => none
  | .deliver msg =>
    let (sent, conn) := t.conn.send msg
    let t := { t with conn }
    some (.deliver msg sent, { t with pc := t.loopHead })
  | .close => some (.close, { t with conn := t.conn.close, pc := .done })
  | .done => none

end Thread

/-- The server: a fault ends it together with all of its threads. -/
structure Server where
  shared : Shared := {}
  thread : Sid → Thread := fun _ => {}
  fault : Option (Sid × Fault) := none

/-- An action with the thread that does it and the number of the message it is doing it for. -/
structure Event where
  session : Sid
  serial : ℕ
  action : Action

/-- A scheduling decision: a client is accepted, or a thread takes its next step. -/
inductive Sched
  | accept (i : Sid) (fd : ℕ) (reads : List ReadResult) (writes : List WriteResult)
  | run (i : Sid) (c : Choice)

namespace Sched

/-- A client that sends `text` in one piece and then closes, over a wire that takes all. -/
def client (i : Sid) (text : String) : Sched :=
  .accept i 4 (if h : str text ≠ [] ∧ (str text).length ≤ rioBufsize then [.data ⟨str text, h⟩]
    else []) []

def steps (i : Sid) (n : ℕ) : List Sched := List.replicate n (.run i {})

end Sched

namespace Server

def next (s : Server) : Sched → Option (Event × Server)
  | .accept i fd reads writes =>
    match s.fault, (s.thread i).pc with
    | none, .unborn =>
      let conn := Connection.ofFd fd reads writes
      some (⟨i, 0, .accept conn⟩,
        { s with thread := Function.update s.thread i { conn, pc := .login } })
    | _, _ => none
  | .run i c =>
    match s.fault with
    | none => do
      let (a, t) ← (s.thread i).next i s.shared c
      let shared ← s.shared.apply i a
      some (⟨i, t.serial, a⟩,
        { shared
          thread := Function.update s.thread i t
          fault := match a with
            | .fault f => some (i, f)
            | _ => none })
    | some _ => none

/-- One step of the server under some scheduling decision. -/
def Step (s : Server) (e : Event) (s' : Server) : Prop := ∃ c, s.next c = some (e, s')

end Server
end Chat
