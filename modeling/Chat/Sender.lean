import Chat.Client

/-! `sender.cpp`: the client that logs in and turns lines of standard input into requests. -/
namespace Chat

/-- `std::string::find`: where `pat` first occurs in `s`. -/
def find (s pat : Bytes) : Option ℕ := s.tails.findIdx? (pat.isPrefixOf ·)

theorem find_eq_none_iff {s pat : Bytes} : find s pat = none ↔ ¬ pat <:+: s := by
  rw [find, List.findIdx?_eq_none_iff, List.infix_iff_prefix_suffix]
  simp only [List.mem_tails, Bool.eq_false_iff, ne_eq, List.isPrefixOf_iff_prefix, not_exists,
    not_and]
  exact forall_congr' fun t => imp_not_comm

inductive Command
  | join (roomName : Bytes)
  | leave
  | quit
  | sendall (text : Bytes)
  deriving DecidableEq

namespace Command

def message : Command → Message
  | join roomName => ⟨tagJoin, roomName⟩
  | leave => ⟨tagLeave, []⟩
  | quit => ⟨tagQuit, []⟩
  | sendall text => ⟨tagSendall, text⟩

def notSent : Command → Bytes
  | join _ => str "Sending join not successful.\n"
  | leave => str "Sending leave not successful.\n"
  | quit => str "Sending quit not successful.\n"
  | sendall _ => str "Sending sendall not successful.\n"

def notReceived : Command → Bytes
  | join _ => str "Receiving join not successful.\n"
  | leave => str "Receiving after leave not successful.\n"
  | quit => str "Receiving after quit not successful.\n"
  | sendall _ => str "Receiving after sendall not successful.\n"

/-- What is printed after the text of an `err` response. -/
def errEnd : Command → Bytes
  | join _ | sendall _ => []
  | leave | quit => str "\n"

/-- The room after the command, for a sender that was in `room`. -/
def room (cmd : Command) (room : Option Bytes) : Option Bytes :=
  match cmd with
  | join roomName => some roomName
  | leave | quit => none
  | sendall _ => room

theorem tag_ne_delivery (cmd : Command) : cmd.message.tag ≠ tagDelivery := by
  cases cmd with
  | join => exact (by decide : tagJoin ≠ tagDelivery)
  | leave => exact (by decide : tagLeave ≠ tagDelivery)
  | quit => exact (by decide : tagQuit ≠ tagDelivery)
  | sendall => exact (by decide : tagSendall ≠ tagDelivery)

end Command

namespace Sender

/-- The branches of the command loop; a command may stand anywhere in the line. -/
def command (userCommand : Bytes) : Command :=
  match find userCommand (str "/join ") with
  | some pos => .join (userCommand.drop (pos + (str "/join ").length))
  | none =>
    if (find userCommand (str "/leave")).isSome then .leave
    else if (find userCommand (str "/quit")).isSome then .quit
    else .sendall userCommand

/-- One iteration of the command loop. -/
def body (buffer : Bytes) (c : Client) : Except Fault Client := do
  let (userCommand, c) := c.getline
  let cmd := command userCommand
  let (resp, c) ← c.call buffer cmd.message cmd.notSent cmd.notReceived
  match resp with
  | none => pure c
  | some resp =>
    let c := if resp.tag = tagErr then c.cerr (cString resp.data ++ cmd.errEnd) else c
    pure (if cmd = .quit then { c with exit := some 0 } else c)

/-- `main` from the connected socket on, up to `n` iterations of its loop. -/
def main (conn : Connection) (username : Bytes) (stdin : List Bytes) (buffer : ℕ → Bytes)
    (n : ℕ) : Except Fault Client := do
  let c : Client := { conn, stdin }
  if conn.isOpen then
    let (resp, c) ← c.call (buffer 0) ⟨tagSlogin, username⟩ (str "Send slogin not successful.\n")
      (str "Received slogin not successful.\n")
    match resp with
    | none => pure c
    | some resp =>
      if resp.tag = tagErr then pure (c.fail (cString resp.data))
      else c.loop body (fun k => buffer (k + 1)) n
  else pure (c.fail (str "Could not connect to server\n"))

/-- The messages for a login and some lines of input. -/
def requests (username : Bytes) (typed : List Bytes) : List Message :=
  ⟨tagSlogin, username⟩ :: typed.map fun l => (command l).message

/-- The room that some lines of input lead to. -/
def roomAfter (typed : List Bytes) : Option Bytes :=
  typed.foldl (fun room l => (command l).room room) none

theorem command_sendall {t : Bytes} (hjoin : ¬ str "/join " <:+: t) (hleave : ¬ str "/leave" <:+: t)
    (hquit : ¬ str "/quit" <:+: t) : command t = .sendall t := by
  rw [← find_eq_none_iff] at hjoin hleave hquit
  simp [command, hjoin, hleave, hquit]

variable {c c' : Client} {buffer : Bytes}

/-- An iteration that the client survives has sent the request for one line. -/
theorem body_ok (h : body buffer c = .ok c') (hlive : c'.exit = none) :
    command c.getline.1 ≠ .quit ∧ c'.stdin = c.getline.2.stdin ∧
      c'.conn.wire = (c.conn.wire.send (command c.getline.1).message).2 := by
  generalize hcmd : command c.getline.1 = cmd
  have hconn : c.getline.2.conn = c.conn := by rw [c.getline_eq]
  simp only [body, hcmd] at h
  obtain ⟨⟨got, c₁⟩, hcall, h⟩ := ok_of_bind h
  obtain ⟨resp, conn, h, rfl, hwire, -⟩ := Client.call_continues hcall h hlive
  have hc' := Except.ok.inj h
  have hquit : cmd ≠ .quit := fun hq => by
    rw [if_pos hq] at hc'
    rw [← hc'] at hlive
    cases hlive
  rw [if_neg hquit] at hc'
  have hsame : c'.conn = conn ∧ c'.stdin = c.getline.2.stdin := by
    rw [← hc']
    split <;> exact ⟨rfl, rfl⟩
  refine ⟨hquit, hsame.2, ?_⟩
  rw [hsame.1, hwire, hconn]

private theorem loop_ok {buffer : ℕ → Bytes} {n : ℕ} (h : c.loop body buffer n = .ok c')
    (hlive : c'.exit = none) (hn : n ≤ c.stdin.length) :
    c'.conn.wire = (c.conn.wire.sendAll ((c.stdin.take n).map fun l => (command l).message)).2 ∧
      c'.stdin = c.stdin.drop n ∧ ∀ l ∈ c.stdin.take n, command l ≠ .quit := by
  induction n generalizing c' with
  | zero =>
    obtain rfl : c = c' := Except.ok.inj h
    exact ⟨rfl, rfl, by simp⟩
  | succ n ih =>
    obtain ⟨c₁, hloop, h⟩ := ok_of_bind h
    cases hexit : c₁.exit with
    | some status =>
      simp only [hexit] at h
      obtain rfl : c₁ = c' := Except.ok.inj h
      rw [hexit] at hlive
      cases hlive
    | none =>
      simp only [hexit, Option.isNone_none, if_true] at h
      obtain ⟨hwire, hstdin, hquit⟩ := ih hloop hexit (by omega)
      have hlt : n < c.stdin.length := by omega
      have hline : c₁.getline = (c.stdin[n], { c₁ with stdin := c.stdin.drop (n + 1) }) := by
        rw [c₁.getline_eq, hstdin, List.tail_drop, List.drop_eq_getElem_cons hlt]
        rfl
      obtain ⟨hquit', hstdin', hwire'⟩ := body_ok h hlive
      rw [hline] at hquit' hstdin' hwire'
      rw [List.take_succ_eq_append_getElem hlt]
      refine ⟨?_, hstdin', fun l hl => ?_⟩
      · rw [hwire', hwire, List.map_append, Wire.sendAll_append]
        rfl
      · rcases List.mem_append.mp hl with hl | hl
        · exact hquit l hl
        · rwa [List.mem_singleton.mp hl]

/-- While the client goes on it has sent a login and one request for each line it has read. -/
theorem main_ok {conn : Connection} {username : Bytes} {stdin : List Bytes} {buffer : ℕ → Bytes}
    {n : ℕ} (h : main conn username stdin buffer n = .ok c) (hlive : c.exit = none)
    (hn : n ≤ stdin.length) :
    c.conn.wire = (conn.wire.sendAll (requests username (stdin.take n))).2 ∧
      ∀ l ∈ stdin.take n, command l ≠ .quit := by
  by_cases hopen : conn.isOpen = true
  · simp only [main, hopen, if_true] at h
    obtain ⟨⟨got, c₁⟩, hcall, h⟩ := ok_of_bind h
    obtain ⟨resp, conn, h, rfl, hwire, -⟩ := Client.call_continues hcall h hlive
    obtain ⟨hwire', -, hquit⟩ := loop_ok (Client.accepted h hlive) hlive hn
    refine ⟨?_, hquit⟩
    rw [hwire', hwire]
    rfl
  · simp only [main, hopen] at h
    obtain rfl := Except.ok.inj h
    simp [Client.fail] at hlive

end Sender
end Chat
