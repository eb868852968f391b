import Chat.Port
import Chat.Sockets
import Chat.Closing
import Chat.Sender
import Chat.Receiver

/-! The three programs from their arguments on: the `main` functions, and `Server::listen` and the loop
around `accept` as they are in `server.cpp` and in `sev.cpp`. -/
namespace Chat

/-- The system as the programs meet it: what a host, or none for a listening socket, and the name of a
port lead to, and what `listen` and the `close` after its failure return. -/
structure Network where
  resolve : Option Bytes → Bytes → Except Bytes (List Address)
  listens : Bool
  close : CloseResult

/-- What `accept` gives, and `pthread_create` for its descriptor. -/
abbrev Accepted := Option (ℕ × Int)

/-- What has come of `main` in a server: `returned` is for the end of the loop around `accept`. -/
inductive Started
  | exited (status : ℕ)
  | thrown (e : StoiError)
  | accepting (mSsock : Int) (workers : List ℕ) (returned : Bool)
  deriving DecidableEq

namespace Server

/-- `Server::listen` in `server.cpp`, with the value of `m_ssock`. -/
def listen (net : Network) (mPort : ℤ) (pr : Process) : Bool × Int × Process :=
  let port := stdToString mPort
  let (mSsock, pr) := openListenfd port net.listens net.close pr (net.resolve none port)
  (0 ≤ mSsock, mSsock, pr)

/-- `Server::listen` in `sev.cpp`, which takes a descriptor for valid if it is positive. -/
def sevListen (net : Network) (mPort : ℤ) (pr : Process) : Bool × Int × Process :=
  let port := stdToString mPort
  let (mSsock, pr) := openListenfd port net.listens net.close pr (net.resolve none port)
  if 0 < mSsock then (true, mSsock, pr) else (false, mSsock, pr.cerr (str "failed to open server"))

/-- `Server::handle_client_requests` in `server.cpp`: the descriptors that have a worker, whether the loop
has ended, and what is written to the standard error. -/
def handleClientRequests : List Accepted → List ℕ × Bool × Bytes
  | [] => ([], false, [])
  | none :: rs =>
    let (workers, returned, stderr) := handleClientRequests rs
    (workers, returned, str "Error accepting client connection\n" ++ stderr)
  | some (fd, status) :: rs =>
    let (workers, returned, stderr) := handleClientRequests rs
    (if (startClientThread (.ofFd fd [] []) status).1 then fd :: workers else workers, returned,
      if status < 0 then str "Error creating thread\n" ++ stderr else stderr)

/-- `Server::handle_client_requests` in `sev.cpp`. -/
def sevHandleClientRequests : List Accepted → List ℕ × Bool × Bytes
  | [] => ([], false, [])
  | none :: _ => ([], true, str "failed to accept sock")
  | some (fd, status) :: rs =>
    if status < 0 then ([], true, str "failed to create thread")
    else
      let (workers, returned, stderr) := sevHandleClientRequests rs
      (if status = 0 then fd :: workers else workers, returned, stderr)

/-- `main` of `server_main.cpp` with an implementation of `Server`, for the arguments after the program's
name. -/
def main (listen : ℤ → Process → Bool × Int × Process)
    (handleClientRequests : List Accepted → List ℕ × Bool × Bytes) (args : List Bytes)
    (accepts : List Accepted) (pr : Process) : Started × Process :=
  match args with
  | [arg] =>
    match stoi arg with
    | .error e => (.thrown e, pr)
    | .ok port =>
      let (listening, mSsock, pr) := listen port pr
      if listening then
        let (workers, returned, stderr) := handleClientRequests accepts
        (.accepting mSsock workers returned, pr.cerr stderr)
      else
        (.exited 1, pr.cerr (str "Could not listen on port " ++ stdToString port ++ str "\n"))
  | _ => (.exited 1, pr.cerr (str "Usage: server_main <port>\n"))

/-- The program of `server.cpp`. -/
def serverMain (net : Network) : List Bytes → List Accepted → Process → Started × Process :=
  main (listen net) handleClientRequests

/-- The program of `sev.cpp`. -/
def sevMain (net : Network) : List Bytes → List Accepted → Process → Started × Process :=
  main (sevListen net) sevHandleClientRequests

variable {net : Network} {pr : Process}

/-- Some address works for a listening socket of the port. -/
def Bindable (net : Network) (port : ℤ) : Prop :=
  net.listens = true ∧
    ∃ listp, net.resolve none (stdToString port) = .ok listp ∧ Meets Address.Works listp

theorem listen_iff (net : Network) (port : ℤ) (pr : Process) :
    Bindable net port ∧ listen net port pr = (true, (pr.lowest : Int), pr.openFd) ∨
      ¬ Bindable net port ∧ ∃ fd pr', listen net port pr = (false, fd, pr') := by
  have hopen := openAddress_iff (str "getaddrinfo failed (port " ++ stdToString port ++ str "): ")
    (str "open_listenfd close failed: ")
    (fun fd pr => if net.listens then ((fd : Int), pr) else (-1, pr.close fd net.close)) pr
    (net.resolve none (stdToString port))
  rw [listen, openListenfd]
  rcases hopen with ⟨hworks, heq⟩ | ⟨hno, hneg⟩
  · cases hlistens : net.listens with
    | true =>
      rw [hlistens] at heq
      refine .inl ⟨⟨hlistens, hworks⟩, ?_⟩
      simp only [if_true] at heq ⊢
      rw [heq]
      simp
    | false =>
      rw [hlistens] at heq
      refine .inr ⟨fun h => by simp [Bindable, hlistens] at h, ?_⟩
      simp only [Bool.false_eq_true, if_false] at heq ⊢
      rw [heq]
      exact ⟨_, _, rfl⟩
  · generalize openAddress _ _ _ _ _ = r at hneg ⊢
    obtain ⟨fd, pr'⟩ := r
    exact .inr ⟨fun h => hno h.2, fd, pr', by simp [not_le.mpr hneg]⟩

/-- The same for `sev.cpp`, but descriptor zero is not taken. -/
theorem sevListen_iff (net : Network) (port : ℤ) (pr : Process) :
    (Bindable net port ∧ 0 ∈ pr.opened) ∧ sevListen net port pr = (true, (pr.lowest : Int), pr.openFd) ∨
      ¬ (Bindable net port ∧ 0 ∈ pr.opened) ∧ ∃ fd pr', sevListen net port pr = (false, fd, pr') := by
  have hzero : 0 < pr.lowest ↔ 0 ∈ pr.opened := by
    rw [Nat.pos_iff_ne_zero, ne_eq, Process.lowest, Nat.find_eq_zero, not_not]
  have hlisten := listen_iff net port pr
  simp only [listen] at hlisten
  simp only [sevListen]
  generalize openListenfd _ _ _ _ _ = r at hlisten ⊢
  obtain ⟨fd, pr₁⟩ := r
  rcases hlisten with ⟨hbind, heq⟩ | ⟨hno, _, _, heq⟩
  · obtain ⟨-, rfl, rfl⟩ : _ ∧ fd = pr.lowest ∧ pr₁ = pr.openFd := by simpa using heq
    by_cases hmem : 0 ∈ pr.opened
    · exact .inl ⟨⟨hbind, hmem⟩, by simp [hzero.mpr hmem]⟩
    · refine .inr ⟨fun h => hmem h.2, pr.lowest, pr.openFd.cerr (str "failed to open server"), ?_⟩
      simp [show ¬ 0 < pr.lowest from mt hzero.mp hmem]
  · obtain ⟨hneg, -⟩ : fd < 0 ∧ _ := by simpa using heq
    refine .inr ⟨fun h => hno h.1, fd, pr₁.cerr (str "failed to open server"), ?_⟩
    simp [not_lt.mpr hneg.le]

theorem handleClientRequests_returned (accepts : List Accepted) :
    (handleClientRequests accepts).2.1 = false := by
  induction accepts with
  | nil => rfl
  | cons r rs ih =>
    cases r with
    | none => exact ih
    | some r => exact ih

/-- No call of `accept` or `pthread_create` is seen to fail. -/
def Smooth (accepts : List Accepted) : Prop := ∀ r ∈ accepts, ∃ fd status, r = some (fd, status) ∧ 0 ≤ status

/-- The loop in `sev.cpp` ends at the first failure that it sees, and starts the same workers before it. -/
theorem sevHandleClientRequests_iff (accepts : List Accepted) :
    Smooth accepts ∧ (sevHandleClientRequests accepts).1 = (handleClientRequests accepts).1 ∧
        (sevHandleClientRequests accepts).2.1 = false ∨
      ¬ Smooth accepts ∧ (sevHandleClientRequests accepts).2.1 = true := by
  unfold Smooth
  induction accepts with
  | nil => exact .inl ⟨nofun, rfl, rfl⟩
  | cons r rs ih =>
    rw [List.forall_mem_cons]
    match r with
    | none => exact .inr ⟨by simp, rfl⟩
    | some (fd, status) =>
      by_cases hneg : status < 0
      · refine .inr ⟨?_, by rw [sevHandleClientRequests, if_pos hneg]⟩
        rintro ⟨⟨fd', status', heq, hstatus⟩, -⟩
        obtain ⟨-, rfl⟩ := Prod.mk.inj (Option.some.inj heq)
        omega
      · rw [sevHandleClientRequests, if_neg hneg, handleClientRequests]
        rcases ih with ⟨hall, hworkers, hreturned⟩ | ⟨hno, hreturned⟩
        · refine .inl ⟨⟨⟨fd, status, rfl, not_lt.mp hneg⟩, hall⟩, ?_, hreturned⟩
          simp [startClientThread, hneg, hworkers]
        · exact .inr ⟨fun h => hno h.2, hreturned⟩

/-- The one argument begins with a numeral for an `int` that is `P`. -/
def Names (P : ℤ → Prop) (args : List Bytes) : Prop :=
  ∃ arg port, args = [arg] ∧ Denotes arg port ∧ InRange port ∧ P port

/-- How `main` ends where it does not come to the loop. -/
def refusal (args : List Bytes) : Started :=
  match args with
  | [arg] =>
    match stoi arg with
    | .error e => .thrown e
    | .ok _ => .exited 1
  | _ => .exited 1

theorem refusal_ne (args : List Bytes) (mSsock : Int) (workers : List ℕ) (returned : Bool) :
    refusal args ≠ .accepting mSsock workers returned := by
  unfold refusal
  split
  · split <;> exact Started.noConfusion
  · exact Started.noConfusion

/-- `main` for an implementation that can listen just on the ports that are `P`. -/
theorem main_iff {P : ℤ → Prop} {listen : ℤ → Process → Bool × Int × Process}
    (handle : List Accepted → List ℕ × Bool × Bytes)
    (hlisten : ∀ port, P port ∧ listen port pr = (true, (pr.lowest : Int), pr.openFd) ∨
      ¬ P port ∧ ∃ fd pr', listen port pr = (false, fd, pr'))
    (args : List Bytes) (accepts : List Accepted) :
    Names P args ∧ (main listen handle args accepts pr).1 =
        .accepting pr.lowest (handle accepts).1 (handle accepts).2.1 ∨
      ¬ Names P args ∧ (main listen handle args accepts pr).1 = refusal args := by
  match args with
  | [arg] =>
    cases hport : stoi arg with
    | error e =>
      refine .inr ⟨?_, by simp [main, refusal, hport]⟩
      rintro ⟨arg', port, heq, hdenotes, hrange, -⟩
      obtain rfl : arg = arg' := by simpa using heq
      rw [stoi_eq_ok_iff.mpr ⟨hdenotes, hrange⟩] at hport
      cases hport
    | ok port =>
      rcases hlisten port with ⟨hP, heq⟩ | ⟨hP, fd, pr', heq⟩
      · refine .inl ⟨⟨arg, port, rfl, ?_⟩, by simp [main, hport, heq]⟩
        obtain ⟨hdenotes, hrange⟩ := stoi_eq_ok_iff.mp hport
        exact ⟨hdenotes, hrange, hP⟩
      · refine .inr ⟨?_, by simp [main, refusal, hport, heq]⟩
        rintro ⟨arg', port', harg, hdenotes, hrange, hP'⟩
        obtain rfl : arg = arg' := by simpa using harg
        rw [stoi_eq_ok_iff.mpr ⟨hdenotes, hrange⟩] at hport
        obtain rfl := Except.ok.inj hport
        exact hP hP'
  | [] => exact .inr ⟨fun ⟨_, _, heq, _⟩ => (by cases heq), rfl⟩
  | _ :: _ :: _ => exact .inr ⟨fun ⟨_, _, heq, _⟩ => (by cases heq), rfl⟩

theorem serverMain_cases (net : Network) (args : List Bytes) (accepts : List Accepted) (pr : Process) :
    Names (Bindable net) args ∧ (serverMain net args accepts pr).1 =
        .accepting pr.lowest (handleClientRequests accepts).1 (handleClientRequests accepts).2.1 ∨
      ¬ Names (Bindable net) args ∧ (serverMain net args accepts pr).1 = refusal args :=
  main_iff handleClientRequests (fun port => listen_iff net port pr) args accepts

/-- The server accepts clients just if its one argument begins with a numeral for an `int` that can be
listened on, and then it does so on the lowest descriptor. -/
theorem serverMain_accepting_iff (net : Network) (args : List Bytes) (accepts : List Accepted)
    (pr : Process) (mSsock : Int) :
    (∃ workers returned, (serverMain net args accepts pr).1 = .accepting mSsock workers returned) ↔
      mSsock = pr.lowest ∧ Names (Bindable net) args := by
  rcases serverMain_cases net args accepts pr with ⟨hnames, heq⟩ | ⟨hno, heq⟩
  · rw [heq]
    constructor
    · rintro ⟨workers, returned, heq⟩
      cases heq
      exact ⟨rfl, hnames⟩
    · rintro ⟨rfl, -⟩
      exact ⟨_, _, rfl⟩
  · rw [heq]
    exact iff_of_false (fun ⟨_, _, heq⟩ => refusal_ne _ _ _ _ heq) fun h => hno h.2

/-- The two implementations start alike just if a server that can listen does not get descriptor zero and
sees no failure afterwards. -/
theorem mains_agree_iff (net : Network) (args : List Bytes) (accepts : List Accepted) (pr : Process) :
    (serverMain net args accepts pr).1 = (sevMain net args accepts pr).1 ↔
      (Names (Bindable net) args → 0 ∈ pr.opened ∧ Smooth accepts) := by
  rcases serverMain_cases net args accepts pr with ⟨hnames, heq⟩ | ⟨hno, heq⟩ <;>
  rcases main_iff sevHandleClientRequests (fun port => sevListen_iff net port pr) args accepts with
    ⟨hnames', heq'⟩ | ⟨hno', heq'⟩ <;>
  rw [heq, sevMain, heq']
  · have hzero : 0 ∈ pr.opened := by
      obtain ⟨arg, port, -, -, -, -, hzero⟩ := hnames'
      exact hzero
    rcases sevHandleClientRequests_iff accepts with ⟨hsmooth, hworkers, hreturned⟩ | ⟨hno, hreturned⟩
    · exact iff_of_true (by rw [hworkers, hreturned, handleClientRequests_returned])
        fun _ => ⟨hzero, hsmooth⟩
    · refine iff_of_false (fun h => ?_) fun h => hno (h hnames).2
      rw [handleClientRequests_returned, hreturned] at h
      injection h
      contradiction
  · refine iff_of_false (fun h => refusal_ne _ _ _ _ h.symm) fun h => hno' ?_
    obtain ⟨arg, port, harg, hdenotes, hrange, hbind⟩ := hnames
    exact ⟨arg, port, harg, hdenotes, hrange, hbind, (h ⟨arg, port, harg, hdenotes, hrange, hbind⟩).1⟩
  · refine absurd ?_ hno
    obtain ⟨arg, port, harg, hdenotes, hrange, hbind, -⟩ := hnames'
    exact ⟨arg, port, harg, hdenotes, hrange, hbind⟩
  · exact iff_of_true rfl fun hnames => absurd hnames hno

end Server

/-- What the two clients do before their sessions, with `Connection::connect`; `session` is the rest of
`main`. -/
def dial (net : Network) (hostname arg : Bytes) (reads : List ReadResult) (writes : List WriteResult)
    (session : Connection → Except Fault Client) (pr : Process) :
    Except StoiError (Except Fault Client × Process) :=
  match stoi arg with
  | .error e => .error e
  | .ok port =>
    let portStr := stdToString port
    let (clientfd, pr) := openClientfd hostname portStr pr (net.resolve (some hostname) portStr)
    .ok (session (({} : Connection).connect clientfd reads writes), pr)

/-- A client that is called with the wrong number of arguments. -/
def usage (text : Bytes) : Except Fault Client := .ok (Client.fail { conn := {} } text)

/-- `main` of `sender.cpp` for the arguments after the program's name. -/
def senderMain (net : Network) (args stdin : List Bytes) (reads : List ReadResult)
    (writes : List WriteResult) (buffer : ℕ → Bytes) (n : ℕ) (pr : Process) :
    Except StoiError (Except Fault Client × Process) :=
  match args with
  | [hostname, arg, username] =>
    dial net hostname arg reads writes (fun conn => Sender.main conn username stdin buffer n) pr
  | _ => .ok (usage (str "Usage: ./sender [server_address] [port] [username]\n"), pr)

/-- `main` of `receiver.cpp`. -/
def receiverMain (net : Network) (args : List Bytes) (reads : List ReadResult)
    (writes : List WriteResult) (buffer : ℕ → Bytes) (n : ℕ) (pr : Process) :
    Except StoiError (Except Fault Client × Process) :=
  match args with
  | [hostname, arg, username, roomName] =>
    dial net hostname arg reads writes (fun conn => Receiver.main conn username roomName buffer n) pr
  | _ => .ok (usage (str "Usage: ./receiver [server_address] [port] [username] [room]\n"), pr)

/-- Some address of the host works for a client of the port. -/
def Reachable (net : Network) (hostname : Bytes) (port : ℤ) : Prop :=
  ∃ listp, net.resolve (some hostname) (stdToString port) = .ok listp ∧ Meets Address.Works listp

variable {net : Network} {pr : Process} {hostname arg : Bytes} {reads : List ReadResult}
  {writes : List WriteResult}

/-- A client's session has a connection just if its port is a numeral for an `int` that is reachable, and
else it has none, or `std::stoi` has thrown. -/
theorem dial_iff (net : Network) (hostname arg : Bytes) (reads : List ReadResult) (writes : List WriteResult)
    (session : Connection → Except Fault Client) (pr : Process) :
    (∃ port, Denotes arg port ∧ InRange port ∧ Reachable net hostname port) ∧
        dial net hostname arg reads writes session pr =
          .ok (session (.ofFd pr.lowest reads writes), pr.openFd) ∨
      (¬ ∃ port, Denotes arg port ∧ InRange port ∧ Reachable net hostname port) ∧
        ∀ r pr', dial net hostname arg reads writes session pr = .ok (r, pr') →
          ∃ mFd : Int, mFd < 0 ∧ r = session { mFd, mLastResult := .eofOrError } := by
  cases hport : stoi arg with
  | error e =>
    refine .inr ⟨?_, fun r pr' h => by simp [dial, hport] at h⟩
    rintro ⟨port, hdenotes, hrange, -⟩
    rw [stoi_eq_ok_iff.mpr ⟨hdenotes, hrange⟩] at hport
    cases hport
  | ok port =>
    obtain ⟨hdenotes, hrange⟩ := stoi_eq_ok_iff.mp hport
    rw [dial, hport]
    dsimp only
    rw [openClientfd]
    rcases openAddress_iff (str "getaddrinfo failed (" ++ hostname ++ str ":" ++ stdToString port ++
        str "): ") (str "open_clientfd: close failed: ") (fun fd pr => (fd, pr)) pr
        (net.resolve (some hostname) (stdToString port)) with ⟨hworks, heq⟩ | ⟨hno, hneg⟩
    · refine .inl ⟨⟨port, hdenotes, hrange, hworks⟩, ?_⟩
      have hfd : ¬ (pr.lowest : Int) < 0 := by omega
      rw [heq]
      simp [Connection.connect, Connection.ofFd, hfd]
    · refine .inr ⟨?_, fun r pr' h => ?_⟩
      · rintro ⟨port', hdenotes', hrange', hworks⟩
        rw [stoi_eq_ok_iff.mpr ⟨hdenotes', hrange'⟩] at hport
        obtain rfl := Except.ok.inj hport
        exact hno hworks
      · generalize openAddress _ _ _ _ _ = q at hneg h
        obtain ⟨rfl, -⟩ := Prod.mk.inj (Except.ok.inj h)
        exact ⟨q.1, hneg, by simp [Connection.connect, hneg]⟩

/-- A server was started with an argument that denotes `p`, and no other port of its host is reachable: the
two clients come to their sessions if their arguments denote `p` as well, and else, unless `std::stoi`
throws, end with status 1 and without a connection. -/
theorem clients_meet {accepts : List Accepted} {pr₀ : Process} {mSsock : Int}
    {workers : List ℕ} {returned : Bool} {a : Bytes} {p : ℤ}
    (hserver : (Server.serverMain net [a] accepts pr₀).1 = .accepting mSsock workers returned)
    (ha : Denotes a p) (hhost : ∀ port, Reachable net hostname port ↔ port = p) (username roomName : Bytes)
    (stdin : List Bytes) (buffer : ℕ → Bytes) (n : ℕ) :
    (Denotes arg p →
      senderMain net [hostname, arg, username] stdin reads writes buffer n pr =
        .ok (Sender.main (.ofFd pr.lowest reads writes) username stdin buffer n, pr.openFd) ∧
      receiverMain net [hostname, arg, username, roomName] reads writes buffer n pr =
        .ok (Receiver.main (.ofFd pr.lowest reads writes) username roomName buffer n, pr.openFd)) ∧
    (¬ Denotes arg p → ∀ r pr',
      senderMain net [hostname, arg, username] stdin reads writes buffer n pr = .ok (r, pr') ∨
        receiverMain net [hostname, arg, username, roomName] reads writes buffer n pr = .ok (r, pr') →
      ∃ c, r = .ok c ∧ c.exit = some 1 ∧ c.conn.isOpen = false ∧ c.conn.wire.written = []) := by
  have hrange : InRange p := by
    rcases Server.serverMain_cases net [a] accepts pr₀ with ⟨⟨a', p', heq, ha', hrange, -⟩, -⟩ | ⟨-, heq⟩
    · obtain rfl : a = a' := by simpa using heq
      exact ha.unique ha' ▸ hrange
    · exact absurd (heq.symm.trans hserver) (Server.refusal_ne _ _ _ _)
  have hreach : (∃ port, Denotes arg port ∧ InRange port ∧ Reachable net hostname port) ↔ Denotes arg p :=
    ⟨fun ⟨port, hdenotes, _, hport⟩ => ((hhost port).mp hport) ▸ hdenotes,
      fun hdenotes => ⟨p, hdenotes, hrange, (hhost p).mpr rfl⟩⟩
  have hsender := dial_iff net hostname arg reads writes
    (fun conn => Sender.main conn username stdin buffer n) pr
  have hreceiver := dial_iff net hostname arg reads writes
    (fun conn => Receiver.main conn username roomName buffer n) pr
  rw [hreach] at hsender hreceiver
  constructor
  · intro hdenotes
    exact ⟨(hsender.resolve_right fun h => h.1 hdenotes).2, (hreceiver.resolve_right fun h => h.1 hdenotes).2⟩
  · have hclosed : ∀ mFd : Int, mFd < 0 →
        Connection.isOpen { mFd, mLastResult := .eofOrError } = false := fun mFd hneg => by
      simp [Connection.isOpen, hneg]
    rintro hno r pr' (h | h)
    · obtain ⟨mFd, hneg, rfl⟩ := (hsender.resolve_left fun h => hno h.1).2 _ _ h
      exact ⟨_, by simp only [Sender.main, hclosed mFd hneg]; rfl, rfl, hclosed mFd hneg, rfl⟩
    · obtain ⟨mFd, hneg, rfl⟩ := (hreceiver.resolve_left fun h => hno h.1).2 _ _ h
      exact ⟨_, by simp only [Receiver.main, hclosed mFd hneg]; rfl, rfl, hclosed mFd hneg, rfl⟩

/-- A host on which just port 5000 can be reached. -/
private def office : Network where
  resolve host port := if host = none ∨ port = str "5000" then .ok [⟨true, true, .done⟩] else .error []
  listens := true
  close := .done

theorem clients_meet_office : ∃ net pr, senderMain net [str "localhost", str " +5000x", str "alice"] []
    [] [] (fun _ => []) 0 pr =
      .ok (Sender.main (.ofFd pr.lowest [] []) (str "alice") [] (fun _ => []) 0, pr.openFd) := by
  have hworks : Meets Address.Works [⟨true, true, .done⟩] := ⟨[], _, [], rfl, nofun, rfl, rfl⟩
  have hname : str "5000" = stdToString 5000 := by decide
  have hdenotes : Denotes (str "5000") 5000 := strtol_eq_some_iff.mp (by decide)
  have hbind : Server.Bindable office 5000 := ⟨rfl, _, rfl, hworks⟩
  have hserver := ((Server.serverMain_cases office [str "5000"] [] ⟨∅, 0, []⟩).resolve_right
    fun h => h.1 ⟨_, 5000, rfl, hdenotes, by decide, hbind⟩).2
  have hhost (port : ℤ) : Reachable office (str "localhost") port ↔ port = 5000 := by
    constructor
    · rintro ⟨listp, hlistp, -⟩
      by_contra hport
      have hother : stdToString port ≠ str "5000" := by rwa [hname, ne_eq, stdToString_inj]
      simp [office, hother] at hlistp
    · rintro rfl
      exact ⟨_, by simp [office, hname], hworks⟩
  exact ⟨office, ⟨∅, 0, []⟩, ((clients_meet hserver hdenotes hhost (str "alice") [] [] (fun _ => []) 0).1
    (strtol_eq_some_iff.mp (by decide))).1⟩

end Chat
