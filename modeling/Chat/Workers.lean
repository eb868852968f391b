import Chat.Sev
import Mathlib.Data.List.Forall2

/-! The workers of `server.cpp` and of `sev.cpp` from the login on, with the two implementations of a
receiver's session. -/
namespace Chat
open Session

/-- What has come of a worker: the role that its client took, and its session; `stop` counts the messages
that it processed, or took from its queue, if it has ended. -/
structure Worker where
  role : Option Role
  session : Session
  stop : Option ℕ

namespace Session

/-- `new User(username)`. -/
def newUser (s : Session) (user : Sid) (username : Bytes) : Session :=
  { s with shared := s.shared.setUser user ⟨username, {}⟩ }

end Session

namespace Server

/-- One turn of the loop of `Server::chat_with_receiver` in `server.cpp`, for what `dequeue` gave. -/
def chatTurn (s : Session) : Option Message → Except Fault (Session × Bool)
  | some uMsg =>
    if uMsg.tag ≠ tagErr then pure (s.send uMsg, true)
    else pure (s.send receiveError, false)
  | none => pure (s, true)

/-- `Server::chat_with_receiver` in `server.cpp`; it waits where its first message is not there yet. -/
def chatWithReceiver (isOpen : Bool) (user : Sid) (mail : List (Option Message)) (s : Session) :
    List (Option Message) → Except Fault (Session × Option ℕ)
  | [] => pure (s, none)
  | none :: _ => pure (s.send receiveError, some 0)
  | some msg :: _ =>
    if msg.tag ≠ tagJoin then pure (s.send firstNotJoin, some 0)
    else do
      let s := s.findOrCreateRoom msg.data
      let s ← s.deref (s.addMember user)
      loop isOpen chatTurn (s.send joinOk) mail

/-- `handleClientCommunication` in `server.cpp`. -/
def handleClientCommunication (isOpen : Bool) (user : Sid) (userType messageData : Bytes)
    (script mail : List (Option Message)) (s : Session) : Except Fault Worker := do
  let s := s.newUser user messageData
  if userType = tagSlogin then
    let (s, stop) ← loop isOpen (chatWithSender user) s script
    pure ⟨some .sender, s, stop⟩
  else if userType = tagRlogin then
    let (s, stop) ← chatWithReceiver isOpen user mail s script
    pure ⟨some .receiver, s, stop⟩
  else pure ⟨none, s, some 0⟩

/-- `handleClientLogin` in `server.cpp`, for what `receive` returned and left in the message. -/
def handleClientLogin (isOpen : Bool) (user : Sid) (received : Bool) (msg : Message)
    (script mail : List (Option Message)) (s : Session) : Except Fault Worker :=
  if !received then pure ⟨none, s.send loginError, some 0⟩
  else if msg.tag = tagSlogin ∨ msg.tag = tagRlogin then
    handleClientCommunication isOpen user msg.tag msg.data script mail (s.send (loginSuccess msg.tag))
  else pure ⟨none, s.send loginError, some 0⟩

/-- One turn of the loop of `Server::com_receiver` in `sev.cpp`. -/
def comTurn (s : Session) : Option Message → Except Fault (Session × Bool)
  | none => pure (s, true)
  | some msg =>
    if msg.tag = tagErr then pure (s.send ⟨tagErr, str "received an error message"⟩, false)
    else pure (s.send msg, true)

/-- `Server::com_receiver` in `sev.cpp`. -/
def comReceiver (isOpen : Bool) (user : Sid) (mail : List (Option Message)) (s : Session) :
    List (Option Message) → Except Fault (Session × Option ℕ)
  | [] => pure (s, none)
  | none :: _ => pure (s.send ⟨tagErr, str "failed to receive message"⟩, some 0)
  | some message :: _ =>
    if message.tag = tagJoin then do
      let s := s.findOrCreateRoom message.data
      let s ← s.deref (s.addMember user)
      loop isOpen comTurn (s.send ⟨tagOk, str "succeeded in joining room"⟩) mail
    else pure (s.send ⟨tagErr, str "not a valid message"⟩, some 0)

/-- `worker` in `sev.cpp`: it looks at the tag of the login message whether `receive` succeeded or not. -/
def worker (isOpen : Bool) (user : Sid) (loginMessage : Message) (script mail : List (Option Message))
    (s : Session) : Except Fault Worker := do
  let s :=
    if loginMessage.tag = tagErr then s.send ⟨tagErr, loginMessage.data⟩
    else if loginMessage.tag = tagSlogin then s.send ⟨tagOk, str "logged in as sender"⟩
    else if loginMessage.tag = tagRlogin then s.send ⟨tagOk, str "logged in as receiver"⟩
    else s
  let s := s.newUser user loginMessage.data
  if loginMessage.tag = tagSlogin then
    let (s, stop) ← loop isOpen (comSender user) s script
    pure ⟨some .sender, s, stop⟩
  else if loginMessage.tag = tagRlogin then
    let (s, stop) ← comReceiver isOpen user mail s script
    pure ⟨some .receiver, s, stop⟩
  else pure ⟨none, s, some 0⟩

/-- Two messages that are the same but for the text of a reply. -/
def Like (msg₁ msg₂ : Message) : Prop :=
  msg₁.tag = msg₂.tag ∧ (msg₁.tag ≠ tagOk → msg₁.tag ≠ tagErr → msg₁ = msg₂)

theorem Like.refl (msg : Message) : Like msg msg := ⟨rfl, fun _ _ => rfl⟩

theorem Like.ok (text₁ text₂ : Bytes) : Like ⟨tagOk, text₁⟩ ⟨tagOk, text₂⟩ :=
  ⟨rfl, fun hok => absurd rfl hok⟩

theorem Like.err (text₁ text₂ : Bytes) : Like ⟨tagErr, text₁⟩ ⟨tagErr, text₂⟩ :=
  ⟨rfl, fun _ herr => absurd rfl herr⟩

variable {user : Sid} {isOpen : Bool} {s₁ s₂ : Session} {script mail : List (Option Message)}

/-- The sessions have made the same calls and sent the same but for the texts of replies. -/
def Parallel (s₁ s₂ : Session) : Prop := s₁.calls = s₂.calls ∧ List.Forall₂ Like s₁.sent s₂.sent

theorem Parallel.send (h : Parallel s₁ s₂) {msg₁ msg₂ : Message} (hlike : Like msg₁ msg₂) :
    Parallel (s₁.send msg₁) (s₂.send msg₂) :=
  ⟨h.1, List.rel_append h.2 (.cons hlike .nil)⟩

/-- The loops send what is in the queue alike. -/
private theorem turns_agree (h : Parallel s₁ s₂) (mail : List (Option Message)) :
    ∃ r₁ r₂ stop, loop true chatTurn s₁ mail = .ok (r₁, stop) ∧
      loop true comTurn s₂ mail = .ok (r₂, stop) ∧ Parallel r₁ r₂ := by
  induction mail generalizing s₁ s₂ with
  | nil => exact ⟨s₁, s₂, none, rfl, rfl, h⟩
  | cons m mail ih =>
    have hturn : (∃ r₁ r₂, chatTurn s₁ m = .ok (r₁, true) ∧ comTurn s₂ m = .ok (r₂, true) ∧
          Parallel r₁ r₂) ∨
        ∃ r₁ r₂, chatTurn s₁ m = .ok (r₁, false) ∧ comTurn s₂ m = .ok (r₂, false) ∧
          Parallel r₁ r₂ := by
      cases m with
      | none => exact .inl ⟨s₁, s₂, rfl, rfl, h⟩
      | some msg =>
        by_cases herr : msg.tag = tagErr
        · refine .inr ⟨s₁.send receiveError, s₂.send ⟨tagErr, str "received an error message"⟩, ?_, ?_,
            h.send (.err _ _)⟩
          · simp [chatTurn, herr, pure, Except.pure]
          · simp [comTurn, herr, pure, Except.pure]
        · exact .inl ⟨_, _, by simp [chatTurn, herr, pure, Except.pure],
            by simp [comTurn, herr, pure, Except.pure], h.send (.refl msg)⟩
    rcases hturn with ⟨r₁, r₂, h₁, h₂, hparallel⟩ | ⟨r₁, r₂, h₁, h₂, hparallel⟩
    · obtain ⟨r₁', r₂', stop, h₁', h₂', hparallel'⟩ := ih hparallel
      exact ⟨r₁', r₂', stop.map (· + 1), by simp [loop, h₁, h₁', Bind.bind, Except.bind, pure, Except.pure],
        by simp [loop, h₂, h₂', Bind.bind, Except.bind, pure, Except.pure], hparallel'⟩
    · exact ⟨r₁, r₂, some 1, by simp [loop, h₁, Bind.bind, Except.bind, pure, Except.pure],
        by simp [loop, h₂, Bind.bind, Except.bind, pure, Except.pure], hparallel⟩

/-- Both sessions join the room that the name leads to. -/
private theorem join_parallel (h : Parallel s₁ s₂) (hshared : s₁.shared = s₂.shared) (user : Sid)
    (roomName : Bytes) :
    ∃ r₁ r₂, (s₁.findOrCreateRoom roomName).deref ((s₁.findOrCreateRoom roomName).addMember user) = .ok r₁ ∧
      (s₂.findOrCreateRoom roomName).deref ((s₂.findOrCreateRoom roomName).addMember user) = .ok r₂ ∧
      Parallel r₁ r₂ := by
  refine ⟨_, _, deref_some (findOrCreateRoom_room s₁ roomName) _,
    deref_some (findOrCreateRoom_room s₂ roomName) _, ?_, ?_⟩
  · simp [addMember, findOrCreateRoom_calls, h.1, hshared]
  · simpa [addMember, findOrCreateRoom_sent] using h.2

/-- The two implementations of a receiver's session make the same calls, stop at the same message and
send the same but for the texts of replies. -/
theorem receivers_agree (h : Parallel s₁ s₂) (hshared : s₁.shared = s₂.shared) (isOpen : Bool)
    (user : Sid) (mail script : List (Option Message)) :
    ∃ r₁ r₂ stop, chatWithReceiver isOpen user mail s₁ script = .ok (r₁, stop) ∧
      comReceiver isOpen user mail s₂ script = .ok (r₂, stop) ∧ Parallel r₁ r₂ := by
  cases script with
  | nil => exact ⟨s₁, s₂, none, rfl, rfl, h⟩
  | cons m script =>
    cases m with
    | none => exact ⟨_, _, some 0, rfl, rfl, h.send (.err _ _)⟩
    | some msg =>
      by_cases htag : msg.tag = tagJoin
      · obtain ⟨r₁, r₂, h₁, h₂, hjoin⟩ := join_parallel h hshared user msg.data
        have hreplied : Parallel (r₁.send joinOk) (r₂.send ⟨tagOk, str "succeeded in joining room"⟩) :=
          hjoin.send (.ok _ _)
        cases isOpen with
        | true =>
          obtain ⟨r₁', r₂', stop, hr₁, hr₂, hparallel⟩ := turns_agree hreplied mail
          refine ⟨r₁', r₂', stop, ?_, ?_, hparallel⟩
          · simpa [chatWithReceiver, htag, h₁, Bind.bind, Except.bind] using hr₁
          · simpa [comReceiver, htag, h₂, Bind.bind, Except.bind] using hr₂
        | false =>
          have hclosed : ∀ body r, loop false body r mail = .ok (r, some 0) := fun body r => by
            cases mail <;> rfl
          refine ⟨_, _, some 0, ?_, ?_, hreplied⟩
          · simpa [chatWithReceiver, htag, h₁, Bind.bind, Except.bind] using hclosed _ _
          · simpa [comReceiver, htag, h₂, Bind.bind, Except.bind] using hclosed _ _
      · refine ⟨s₁.send firstNotJoin, s₂.send ⟨tagErr, str "not a valid message"⟩, some 0, ?_, ?_,
          h.send (.err _ _)⟩
        · simp [chatWithReceiver, htag, pure, Except.pure]
        · simp [comReceiver, htag, pure, Except.pure]

/-- Two sessions that are about to begin with the same rooms. -/
private def Fresh (s₁ s₂ : Session) : Prop :=
  s₁.shared = s₂.shared ∧ s₁.room = none ∧ s₂.room = none ∧ s₁.calls = [] ∧ s₂.calls = []

private theorem senders_agree (h : Fresh s₁ s₂) (isOpen : Bool) (user : Sid)
    (hleaves : leavesFirst script = false) :
    ∃ r₁ r₂ stop, loop isOpen (chatWithSender user) s₁ script = .ok (r₁, stop) ∧
      loop isOpen (comSender user) s₂ script = .ok (r₂, stop) ∧
      (r₁.calls = r₂.calls ↔ ∀ pre m, Processed isOpen script pre m → Stray m → ¬ Away pre) := by
  obtain ⟨hshared, hroom₁, hroom₂, hcalls₁, hcalls₂⟩ := h
  have hcalls : s₁.calls = s₂.calls := hcalls₁.trans hcalls₂.symm
  cases isOpen with
  | true =>
    have halike : s₁.Alike user s₂ := by
      refine ⟨hroom₁.trans hroom₂.symm, ?_, ?_, fun r => ?_, ?_⟩ <;> rw [hshared]
    have hstart : Together user [] s₁ s₂ :=
      ⟨halike, by rw [hroom₁]; rfl, fun r hr => by simp [hroom₁] at hr, .inl hcalls⟩
    obtain ⟨r₁, r₂, stop, h₁, h₂, hsame⟩ := loops_agree hstart hleaves
    exact ⟨r₁, r₂, stop, h₁, h₂, by simpa [hcalls] using hsame⟩
  | false =>
    have hclosed : ∀ body r, loop false body r script = .ok (r, some 0) := fun body r => by
      cases script <;> rfl
    exact ⟨s₁, s₂, some 0, hclosed _ _, hclosed _ _,
      iff_of_true hcalls fun pre m hm => absurd hm.1 Bool.false_ne_true⟩

/-- The session of a client that has been told of its login and has its user. -/
private def admitted (σ : Shared) (user : Sid) (msg resp : Message) : Session :=
  (({ shared := σ } : Session).send resp).newUser user msg.data

private theorem admitted_fresh (σ : Shared) (user : Sid) (msg resp₁ resp₂ : Message) :
    Fresh (admitted σ user msg resp₁) (admitted σ user msg resp₂) :=
  ⟨rfl, rfl, rfl, rfl, rfl⟩

section Admission

variable {σ : Shared} {msg : Message} {s : Session} {stop : Option ℕ}

private theorem login_sender (hslogin : msg.tag = tagSlogin) (h : loop isOpen (chatWithSender user)
    (admitted σ user msg (loginSuccess msg.tag)) script = .ok (s, stop)) :
    handleClientLogin isOpen user true msg script mail { shared := σ } = .ok ⟨some .sender, s, stop⟩ := by
  rw [admitted, hslogin] at h
  simp only [handleClientLogin, handleClientCommunication, hslogin, Bool.not_true, Bool.false_eq_true,
    true_or, if_false, if_true]
  rw [h]
  rfl

private theorem login_receiver (hrlogin : msg.tag = tagRlogin) (h : chatWithReceiver isOpen user mail
    (admitted σ user msg (loginSuccess msg.tag)) script = .ok (s, stop)) :
    handleClientLogin isOpen user true msg script mail { shared := σ } = .ok ⟨some .receiver, s, stop⟩ := by
  have hother : tagRlogin ≠ tagSlogin := by decide
  rw [admitted, hrlogin] at h
  simp only [handleClientLogin, handleClientCommunication, hrlogin, hother, Bool.not_true,
    Bool.false_eq_true, or_true, if_false, if_true]
  rw [h]
  rfl

private theorem worker_sender (hslogin : msg.tag = tagSlogin) (h : loop isOpen (comSender user)
    (admitted σ user msg ⟨tagOk, str "logged in as sender"⟩) script = .ok (s, stop)) :
    worker isOpen user msg script mail { shared := σ } = .ok ⟨some .sender, s, stop⟩ := by
  have herr : tagSlogin ≠ tagErr := by decide
  simp only [worker, hslogin, herr, if_false, if_true]
  rw [admitted] at h
  rw [h]
  rfl

private theorem worker_receiver (hrlogin : msg.tag = tagRlogin) (h : comReceiver isOpen user mail
    (admitted σ user msg ⟨tagOk, str "logged in as receiver"⟩) script = .ok (s, stop)) :
    worker isOpen user msg script mail { shared := σ } = .ok ⟨some .receiver, s, stop⟩ := by
  have herr : tagRlogin ≠ tagErr := by decide
  have hother : tagRlogin ≠ tagSlogin := by decide
  simp only [worker, hrlogin, herr, hother, if_false, if_true]
  rw [admitted] at h
  rw [h]
  rfl

/-- Neither worker has a role for a client without the tag of a login. -/
private theorem nobody (hslogin : msg.tag ≠ tagSlogin) (hrlogin : msg.tag ≠ tagRlogin) (received : Bool) :
    ∃ s₁ s₂, handleClientLogin isOpen user received msg script mail { shared := σ } = .ok ⟨none, s₁, some 0⟩ ∧
      worker isOpen user msg script mail { shared := σ } = .ok ⟨none, s₂, some 0⟩ ∧
      s₁.calls = s₂.calls := by
  have hserver : handleClientLogin isOpen user received msg script mail { shared := σ } =
      .ok ⟨none, ({ shared := σ } : Session).send loginError, some 0⟩ := by
    cases received <;> simp [handleClientLogin, hslogin, hrlogin, pure, Except.pure]
  have hsev : ∃ s, worker isOpen user msg script mail { shared := σ } = .ok ⟨none, s, some 0⟩ ∧
      s.calls = [] := by
    by_cases herr : msg.tag = tagErr
    · exact ⟨_, by simp only [worker, hslogin, hrlogin, if_false]; rfl, by simp [herr]; rfl⟩
    · exact ⟨_, by simp only [worker, hslogin, hrlogin, if_false]; rfl, by simp [herr]; rfl⟩
  obtain ⟨s, hsev, hcalls⟩ := hsev
  exact ⟨_, s, hserver, hsev, hcalls.symm⟩

end Admission

/-- The two workers admit their client in the same role, and their sessions make the same calls and stop
at the same message, just if the tag of a login was not all that there was of its message, and no sender
that is away is broadcast for; what a receiver is sent differs in the texts of replies alone. -/
theorem workers_agree_iff (isOpen : Bool) (user : Sid) (σ : Shared) (received : Bool) (msg : Message)
    (script mail : List (Option Message)) (hleaves : leavesFirst script = false) :
    ∃ w₁ w₂, handleClientLogin isOpen user received msg script mail { shared := σ } = .ok w₁ ∧
      worker isOpen user msg script mail { shared := σ } = .ok w₂ ∧
      (w₁.role = w₂.role ∧ w₁.session.calls = w₂.session.calls ∧ w₁.stop = w₂.stop ↔
        (received = false → msg.tag ≠ tagSlogin ∧ msg.tag ≠ tagRlogin) ∧
        (received = true → msg.tag = tagSlogin →
          ∀ pre m, Processed isOpen script pre m → Stray m → ¬ Away pre)) ∧
      (received = true → msg.tag = tagRlogin →
        List.Forall₂ Like w₁.session.sent w₂.session.sent) := by
  by_cases hslogin : msg.tag = tagSlogin
  · have hno : msg.tag ≠ tagRlogin := by rw [hslogin]; decide
    obtain ⟨r₁, r₂, stop, h₁, h₂, hcalls⟩ :=
      senders_agree (admitted_fresh σ user msg (loginSuccess msg.tag) ⟨tagOk, str "logged in as sender"⟩)
        isOpen user hleaves
    cases received with
    | true =>
      refine ⟨_, _, login_sender hslogin h₁, worker_sender hslogin h₂, ?_, fun _ htag => absurd htag hno⟩
      simpa [hslogin] using hcalls
    | false =>
      exact ⟨_, _, rfl, worker_sender hslogin h₂,
        iff_of_false (fun h => by cases h.1) fun h => (h.1 rfl).1 hslogin, nofun⟩
  by_cases hrlogin : msg.tag = tagRlogin
  · have hstart : Parallel (admitted σ user msg (loginSuccess msg.tag))
        (admitted σ user msg ⟨tagOk, str "logged in as receiver"⟩) :=
      ⟨rfl, .cons (.ok _ _) .nil⟩
    obtain ⟨r₁, r₂, stop, h₁, h₂, hcalls, hsent⟩ := receivers_agree hstart rfl isOpen user mail script
    cases received with
    | true =>
      exact ⟨_, _, login_receiver hrlogin h₁, worker_receiver hrlogin h₂,
        iff_of_true ⟨rfl, hcalls, rfl⟩ ⟨nofun, fun _ htag => absurd htag hslogin⟩, fun _ _ => hsent⟩
    | false =>
      exact ⟨_, _, rfl, worker_receiver hrlogin h₂,
        iff_of_false (fun h => by cases h.1) fun h => (h.1 rfl).2 hrlogin, nofun⟩
  · obtain ⟨s₁, s₂, hserver, hsev, hcalls⟩ := nobody hslogin hrlogin received
    exact ⟨_, _, hserver, hsev,
      iff_of_true ⟨rfl, hcalls, rfl⟩ ⟨fun _ => ⟨hslogin, hrlogin⟩, fun _ htag => absurd htag hslogin⟩,
      fun _ htag => absurd htag hrlogin⟩

/-- A client that closes after the tag of a login is a sender for `sev.cpp`, and nobody for `server.cpp`. -/
theorem workers_agree_iff_bare : ∃ conn conn' w₁ w₂,
    Connection.receive conn [] {} = .ok (false, ⟨tagSlogin, tagSlogin⟩, conn') ∧
    handleClientLogin true 0 false ⟨tagSlogin, tagSlogin⟩ [] [] { shared := {} } = .ok w₁ ∧
    worker true 0 ⟨tagSlogin, tagSlogin⟩ [] [] { shared := {} } = .ok w₂ ∧
    ¬ (w₁.role = w₂.role ∧ w₁.session.calls = w₂.session.calls ∧ w₁.stop = w₂.stop) := by
  obtain ⟨w₁, w₂, h₁, h₂, hagree, -⟩ :=
    workers_agree_iff true 0 {} false ⟨tagSlogin, tagSlogin⟩ [] [] rfl
  exact ⟨.ofFd 4 [.data ⟨tagSlogin, by decide⟩] [], _, w₁, w₂, rfl, h₁, h₂,
    fun hsame => (hagree.mp hsame).1 rfl |>.1 rfl⟩

end Server
end Chat
