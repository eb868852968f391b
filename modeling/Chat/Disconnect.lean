import Chat.Requests

/-! The end of a client's stream: `rio_readlineb` returns 0 there and leaves the buffer alone, and
`receive` goes on with what the buffer held before. -/
namespace Chat
open Transition Lines

namespace Connection

/-- The call fails, and says that the stream has ended. -/
def ReportsEof (conn : Connection) (buffer : Bytes) (msg : Message) : Prop :=
  ∃ m conn', conn.receive buffer msg = .ok (false, m, conn') ∧ conn'.mLastResult = .eofOrError

/-- At the end of the stream the outcome is that of the buffer's old content. -/
theorem not_reportsEof {conn : Connection} (hs : conn.mFdbuf.stream = [])
    (hb : conn.mFdbuf.broken = false) (buffer : Bytes) (msg : Message) :
    ¬ conn.ReportsEof buffer msg := by
  rintro ⟨m, conn', hrec, heof⟩
  obtain ⟨rp, -, -, hrec'⟩ := receive_eof hs hb buffer msg
  rw [hrec'] at hrec
  by_cases hok : FieldsOk buffer
  · obtain ⟨ok, m', r, hun, hdec⟩ := unpack_ok hok { conn with mFdbuf := rp } msg
    rw [hun] at hrec
    obtain ⟨rfl, -, rfl⟩ : ok = false ∧ m' = m ∧ _ = conn' := by simpa using hrec
    obtain rfl : r = .eofOrError := heof
    cases hd : decode buffer with
    | none => simp [hd] at hdec
    | some m'' => simp [hd] at hdec
  · rw [unpack_error hok] at hrec
    cases hrec

/-- A line in the buffer is received again. -/
theorem receive_stale {conn : Connection} (hs : conn.mFdbuf.stream = [])
    (hb : conn.mFdbuf.broken = false) {buffer : Bytes} {m : Message} (hm : decode buffer = some m)
    (msg : Message) : ∃ conn', conn.receive buffer msg = .ok (true, m, conn') := by
  obtain ⟨rp, -, -, hrec⟩ := receive_eof hs hb buffer msg
  obtain ⟨ok, m', r, hun, hdec⟩ :=
    unpack_ok (fieldsOk_of_decode hm) { conn with mFdbuf := rp } msg
  rw [hm] at hdec
  obtain ⟨rfl, -, rfl, -⟩ := hdec
  exact ⟨_, hrec.trans hun⟩

end Connection

namespace Server

variable {s : Server} {i : Sid}

private theorem acts_on_stale (halive : s.fault = none) (hs : (s.thread i).conn.mFdbuf.stream = [])
    (hb : (s.thread i).conn.mFdbuf.broken = false) {line : Bytes} {m : Message}
    (hm : decode line = some m) :
    ((s.thread i).pc = .receive →
        ∃ s', s.Step ⟨i, (s.thread i).serial + 1, .receive (some m)⟩ s') ∧
      ((s.thread i).pc = .login → ∃ s', s.Step ⟨i, (s.thread i).serial, .login (some m)⟩ s') := by
  obtain ⟨conn, hrec⟩ := Connection.receive_stale hs hb hm {}
  constructor
  · intro hpc
    exact ⟨_, .run i { buffer := line }, by simp [next, halive, Thread.next, hpc, hrec, Shared.apply]; rfl⟩
  · intro hpc
    exact ⟨_, .run i { buffer := line }, by simp [next, halive, Thread.next, hpc, hrec, Shared.apply]; rfl⟩

/-- No call at the end of the stream reports it, whatever calls came before; a session whose client
has closed may take up any message instead, as a stale buffer has it. -/
theorem eof_not_reported (fd : Int) (rs : List ReadResult) (ws : List WriteResult) :
    (∀ (buffer : ℕ → Bytes) (msg : ℕ → Message) (k : ℕ) (conn : Connection),
      Connection.receiveN (.ofFd fd rs ws) buffer msg k = .ok conn → conn.mFdbuf.stream = [] →
      conn.mFdbuf.broken = false → ¬ conn.ReportsEof (buffer k) (msg k)) ∧
    ∀ (es : List Event) (s : Server) (i : Sid) (line : Bytes) (m : Message),
      Run Server.Step {} es s → s.fault = none → (s.thread i).conn.mFdbuf.stream = [] →
      (s.thread i).conn.mFdbuf.broken = false → decode line = some m →
      ((s.thread i).pc = .receive →
          ∃ s', s.Step ⟨i, (s.thread i).serial + 1, .receive (some m)⟩ s') ∧
        ((s.thread i).pc = .login → ∃ s', s.Step ⟨i, (s.thread i).serial, .login (some m)⟩ s') := by
  constructor
  · exact fun buffer msg k conn _ hs hb => Connection.not_reportsEof hs hb _ _
  · exact fun es s i line m _ halive hs hb hm => acts_on_stale halive hs hb hm

theorem eof_not_reported_leave : ∃ conn,
    Connection.receiveN (.ofFd 4 [.data ⟨str "leave:bye\n", by decide⟩] []) (fun _ => [])
      (fun _ => {}) 1 = .ok conn ∧ ¬ conn.ReportsEof [] {} := by
  have hrun : Connection.receiveN (.ofFd 4 [.data ⟨str "leave:bye\n", by decide⟩] [])
      (fun _ => []) (fun _ => {}) 1 = .ok (.ofFd 4 [] []) := rfl
  exact ⟨_, hrun, (eof_not_reported _ _ _).1 _ _ _ _ hrun rfl rfl⟩

/-- A client that only logs in. Its session finds a join in the buffer when the client has closed. -/
private def silent : List Sched :=
  .client 0 "slogin:alice\n" :: Sched.steps 0 3 ++
    .run 0 { buffer := str "join:lobby\n" ++ [0] } :: Sched.steps 0 7

theorem eof_acts_on_stale :
    (∃ conn, (Connection.ofFd 4 [] []).receive (str "join:lobby\n") {} =
      .ok (true, ⟨tagJoin, str "lobby\n"⟩, conn)) ∧
    ∃ es s conn, Run Server.Step {} es s ∧ ⟨0, 0, .accept conn⟩ ∈ es ∧
      conn.mFdbuf.stream = str "slogin:alice\n" ∧
      heard 0 es = [some ⟨tagJoin, str "lobby\n"⟩] ∧ ⟨0, 1, .reply joinOk true⟩ ∈ es := by
  refine ⟨⟨_, rfl⟩, ?_⟩
  obtain ⟨⟨es, s⟩, h⟩ := Option.isSome_iff_exists.mp (show (outcome silent).isSome = true by decide)
  have haccept : (outcome silent).bind (fun p => p.1[0]?) =
      some ⟨0, 0, .accept (.ofFd 4 [.data ⟨str "slogin:alice\n", by decide⟩] [])⟩ := rfl
  have hheard : (outcome silent).map (fun p => heard 0 p.1) =
      some [some ⟨tagJoin, str "lobby\n"⟩] := by decide
  have hreply : (outcome silent).bind (fun p => p.1[11]?) = some ⟨0, 1, .reply joinOk true⟩ := rfl
  rw [h] at haccept hheard hreply
  exact ⟨es, s, _, run_of_outcome h, List.mem_of_getElem? haccept, rfl, Option.some.inj hheard,
    List.mem_of_getElem? hreply⟩

end Server
end Chat
