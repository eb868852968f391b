import Chat.Reading
import Chat.SenderSession

/-! Which sessions close their descriptor, over every way in which the handling of a client can end:
only the end of `chat_with_sender` is a close. -/
namespace Chat
open Transition

/-- Client `i` logged in as a sender. -/
def SenderLogin (i : Sid) (es : List Event) : Prop :=
  ∃ n m, ⟨i, n, .login (some m)⟩ ∈ es ∧ m.tag = tagSlogin

/-- The action is the receipt of a login message. -/
def Action.logsIn : Action → Bool
  | .login (some _) => true
  | _ => false

namespace Thread

/-- The closes of a session's descriptor, by its position; `sender` tells of its login. -/
def Closes (sender : Prop) (t : Thread) : Prop :=
  match t.pc with
  | .unborn | .login | .loginReply false | .reply _ .ret => t.conn.closes = 0 ∧ ¬ sender
  | .loginReply true | .newUser => t.conn.closes = 0 ∧ (t.msg.tag = tagSlogin ↔ sender)
  | .reply _ .close | .close => t.conn.closes = 0 ∧ sender
  | .done => t.conn.closes = 1 ∧ sender ∨ t.conn.closes = 0 ∧ ¬ sender
  | _ => t.conn.closes = 0 ∧ (t.role = .sender ↔ sender)

variable {i : Sid} {σ : Shared} {sender : Prop} {t t' : Thread} {a : Action}

theorem Closes.congr {sender' : Prop} (h : t.Closes sender) (hsender : sender' ↔ sender) :
    t.Closes sender' := by
  rwa [propext hsender]

private theorem closes_loopHead {t' : Thread} (hpc : t'.pc = t.loopHead)
    (hopen : t.conn.isOpen = true) (h : t'.conn.closes = 0 ∧ (t'.role = .sender ↔ sender)) :
    t'.Closes sender := by
  have hhead : t.loopHead = .receive ∨ t.loopHead = .dequeue .wait := by
    unfold loopHead
    rw [hopen]
    cases t.role <;> simp
  unfold Closes
  rw [hpc]
  rcases hhead with hhead | hhead <;> rwa [hhead]

private theorem closes_dispatch {t' : Thread} {m : Message} (hpc : Dispatch t.role t.room m.tag t'.pc)
    (hrole : t'.role = t.role) (h : t'.conn.closes = 0 ∧ (t.role = .sender ↔ sender)) :
    t'.Closes sender := by
  unfold Closes
  rw [hrole]
  generalize t'.pc = pc at hpc
  cases hpc with
  | quit hsender => exact ⟨h.1, h.2.mp hsender⟩
  | notJoin hreceiver =>
    refine ⟨h.1, fun hlogin => ?_⟩
    cases hreceiver.symm.trans (h.2.mpr hlogin)
  | _ => exact h

private theorem closes_login {msg : Message} {conn : Connection} (hzero : conn.closes = 0) :
    ({ t with conn, msg, pc := .loginReply (msg.tag = tagSlogin ∨ msg.tag = tagRlogin) } : Thread).Closes
      (msg.tag = tagSlogin) := by
  unfold Closes
  by_cases hsender : msg.tag = tagSlogin
  · simp [hsender, hzero]
  · have hother : tagRlogin ≠ tagSlogin := by decide
    by_cases hreceiver : msg.tag = tagRlogin
    · simp [hreceiver, hother, hzero]
    · simp [hsender, hreceiver, hzero]

private theorem closes_reply {resp : Message} {resume : Resume} {conn : Connection} (h : t.Closes sender)
    (hopen : conn.isOpen = true) (hcloses : conn.closes = t.conn.closes) :
    t.pc = .reply resp resume → ({ t with
      conn
      pc := match resume with
        | .loop => ({ t with conn } : Thread).loopHead
        | .close => .close
        | .ret => .done } : Thread).Closes sender := by
  intro hpc
  cases resume with
  | loop =>
    obtain ⟨hzero, hrole⟩ : t.conn.closes = 0 ∧ (t.role = .sender ↔ sender) := by
      simpa only [Closes, hpc] using h
    exact @closes_loopHead _ { t with conn } _ rfl hopen ⟨hcloses.trans hzero, hrole⟩
  | close =>
    obtain ⟨hzero, hlogin⟩ : t.conn.closes = 0 ∧ sender := by simpa only [Closes, hpc] using h
    exact ⟨hcloses.trans hzero, hlogin⟩
  | ret =>
    obtain ⟨hzero, hno⟩ : t.conn.closes = 0 ∧ ¬ sender := by simpa only [Closes, hpc] using h
    exact .inr ⟨hcloses.trans hzero, hno⟩

/-- A login message counts at once; everything else leaves the login as it was. -/
theorem Closes.step (h : t.Closes sender) (ht : Step i σ t a t')
    (hopen : t.pc ≠ .unborn → t.conn.isOpen = true) (hhand : ∀ msg ∈ t.pc.inHand, msg.tag ≠ tagErr) :
    t'.Closes (sender ∨ ∃ m, a = .login (some m) ∧ m.tag = tagSlogin) := by
  have same (ha : a.logsIn = false) (h' : t'.Closes sender) :
      t'.Closes (sender ∨ ∃ m, a = .login (some m) ∧ m.tag = tagSlogin) :=
    h'.congr (or_iff_left fun ⟨m, heq, _⟩ => by simp [heq, Action.logsIn] at ha)
  cases ht with
  | inner ht =>
    cases ht with
    | removeAcquire hpc | removeBody hpc | findAcquire hpc | findBody hpc | findRelease hpc
    | addAcquire hpc | addBody hpc | broadcastAcquire hpc | broadcastStart hpc | visitOther hpc
    | visitSame hpc | enqueue hpc | enqueueEnd hpc =>
      exact same rfl (by simpa only [Closes, hpc] using h)
    | @dequeue pc timedOut a pc' hpc =>
      exact same rfl (by cases pc <;> simpa only [Closes, hpc] using h)
  | accept _ _ _ hpc =>
    obtain ⟨-, hno⟩ : t.conn.closes = 0 ∧ ¬ sender := by simpa only [Closes, hpc] using h
    exact same rfl ⟨rfl, hno⟩
  | loginFail hpc hrec =>
    have hframe := (Connection.receive_frame hrec).2.2
    obtain ⟨hzero, hno⟩ : t.conn.closes = 0 ∧ ¬ sender := by simpa only [Closes, hpc] using h
    exact same rfl ⟨hframe.trans hzero, hno⟩
  | @loginOk buffer msg conn hpc hrec =>
    have hframe := (Connection.receive_frame hrec).2.2
    obtain ⟨hzero, hno⟩ : t.conn.closes = 0 ∧ ¬ sender := by simpa only [Closes, hpc] using h
    have hlogin : (sender ∨ ∃ m, Action.login (some msg) = .login (some m) ∧ m.tag = tagSlogin) ↔
        msg.tag = tagSlogin := by simp [hno]
    exact Closes.congr (closes_login (hframe.trans hzero)) hlogin
  | @loginReply accepted resp sent conn hpc hsend =>
    have hframe := (Connection.send_frame hsend).2.2
    cases accepted with
    | true =>
      obtain ⟨hzero, hlogin⟩ : t.conn.closes = 0 ∧ (t.msg.tag = tagSlogin ↔ sender) := by
        simpa only [Closes, hpc] using h
      exact same rfl ⟨hframe.trans hzero, hlogin⟩
    | false =>
      obtain ⟨hzero, hno⟩ : t.conn.closes = 0 ∧ ¬ sender := by simpa only [Closes, hpc] using h
      exact same rfl (.inr ⟨hframe.trans hzero, hno⟩)
  | newSender hpc htag =>
    obtain ⟨hzero, hlogin⟩ : t.conn.closes = 0 ∧ (t.msg.tag = tagSlogin ↔ sender) := by
      simpa only [Closes, hpc] using h
    refine same rfl (@closes_loopHead _ { t with role := .sender } _ rfl (hopen (by simp [hpc])) ?_)
    exact ⟨hzero, iff_of_true rfl (hlogin.mp htag)⟩
  | newReceiver hpc htag =>
    obtain ⟨hzero, hlogin⟩ : t.conn.closes = 0 ∧ (t.msg.tag = tagSlogin ↔ sender) := by
      simpa only [Closes, hpc] using h
    exact same rfl ⟨hzero, iff_of_false Role.noConfusion fun hs => htag (hlogin.mpr hs)⟩
  | receiveFail hpc hrec =>
    have hframe := (Connection.receive_frame hrec).2.2
    obtain ⟨hzero, hrole⟩ : t.conn.closes = 0 ∧ (t.role = .sender ↔ sender) := by
      simpa only [Closes, hpc] using h
    refine same rfl ?_
    by_cases hsender : t.role = .sender
    · simp [Closes, hsender, hframe.trans hzero, hrole.mp hsender]
    · simp [Closes, hsender, hframe.trans hzero, hrole.not.mp hsender]
  | receiveOk hpc hrec =>
    have hframe := (Connection.receive_frame hrec).2.2
    obtain ⟨hzero, hrole⟩ : t.conn.closes = 0 ∧ (t.role = .sender ↔ sender) := by
      simpa only [Closes, hpc] using h
    exact same rfl (closes_dispatch (dispatch_cases _ _ _) rfl ⟨hframe.trans hzero, hrole⟩)
  | removeRelease hpc =>
    have h' : t.conn.closes = 0 ∧ (t.role = .sender ↔ sender) := by simpa only [Closes, hpc] using h
    refine same rfl ?_
    unfold Closes
    by_cases hjoin : t.msg.tag = tagJoin <;> simpa [hjoin] using h'
  | addRelease hpc | loopEnd hpc => exact same rfl (by simpa only [Closes, hpc] using h)
  | @memberExists r found hpc =>
    have h' : t.conn.closes = 0 ∧ (t.role = .sender ↔ sender) := by simpa only [Closes, hpc] using h
    refine same rfl ?_
    unfold Closes
    dsimp only
    by_cases hleave : t.msg.tag = tagLeave <;> cases found <;> simpa [hleave] using h'
  | @reply resp resume sent conn hpc hsend =>
    have hopen' : conn.isOpen = true := by
      have := hopen (by simp [hpc])
      rwa [Connection.isOpen, (Connection.send_frame hsend).1, ← Connection.isOpen]
    exact same rfl (closes_reply h hopen' (Connection.send_frame hsend).2.2 hpc)
  | @dequeueEnd res hpc =>
    have h' : t.conn.closes = 0 ∧ (t.role = .sender ↔ sender) := by simpa only [Closes, hpc] using h
    cases res with
    | none => exact same rfl (closes_loopHead rfl (hopen (by simp [hpc])) h')
    | some msg =>
      have htag : msg.tag ≠ tagErr := hhand msg (by simp [hpc, Pc.inHand])
      exact same rfl (by simpa [Closes, htag] using h')
  | deliver hpc hsend =>
    have hopen' := hopen (by simp [hpc])
    rw [Connection.isOpen, ← (Connection.send_frame hsend).1, ← Connection.isOpen] at hopen'
    have hframe := (Connection.send_frame hsend).2.2
    obtain ⟨hzero, hrole⟩ : t.conn.closes = 0 ∧ (t.role = .sender ↔ sender) := by
      simpa only [Closes, hpc] using h
    exact same rfl (@closes_loopHead _ { t with conn := _ } _ rfl hopen' ⟨hframe.trans hzero, hrole⟩)
  | close hpc =>
    obtain ⟨hzero, hlogin⟩ : t.conn.closes = 0 ∧ sender := by simpa only [Closes, hpc] using h
    have hopen' := hopen (by simp [hpc])
    exact same rfl (.inl ⟨by simp [Connection.close, hopen', hzero], hlogin⟩)
  | subscript | nullRoom | emptyQueue => exact same rfl h

end Thread
/-- `startClientThread`, with what `pthread_create` returns: whether a worker has the connection, and
the connection, which is deleted where the result is negative. -/
def startClientThread (conn : Connection) (status : Int) : Bool × Connection :=
  if status < 0 then (false, conn.close) else (status = 0, conn)

/-- The server with the clients that it has accepted but started no worker for. -/
structure Host where
  server : Server := {}
  refused : Sid → Option Connection := fun _ => none

/-- A step of a worker, or the acceptance of a client with what `pthread_create` returned. -/
inductive HostEvent
  | work (e : Event)
  | start (i : Sid) (conn : Connection) (status : ℕ)

namespace Host

/-- What is left of the clients' descriptors: `accept` numbers are fresh, and `pthread_create`
returns 0 or an error number. -/
inductive Step (h : Host) : HostEvent → Host → Prop
  | work {e : Event} {s : Server} : (∀ conn, e.action ≠ .accept conn) → h.server.Step e s →
      Step h (.work e) { h with server := s }
  | start {i : Sid} {conn : Connection} {status : ℕ} {s : Server} :
      (startClientThread conn status).1 = true → h.refused i = none →
      h.server.Step ⟨i, 0, .accept conn⟩ s → Step h (.start i conn status) { h with server := s }
  | refuse {i : Sid} (fd : ℕ) (reads : List ReadResult) (writes : List WriteResult) {status : ℕ} :
      (startClientThread (.ofFd fd reads writes) status).1 = false → h.server.fault = none →
      (h.server.thread i).pc = .unborn → h.refused i = none →
      Step h (.start i (.ofFd fd reads writes) status) { h with
        refused := Function.update h.refused i
          (some (startClientThread (.ofFd fd reads writes) status).2) }

/-- The handling of client `i` is over: its worker has returned, or it never had one. -/
def Over (h : Host) (i : Sid) : Prop := (h.server.thread i).pc = .done ∨ (h.refused i).isSome = true

/-- How often the descriptor of client `i` has been closed. -/
def closes (h : Host) (i : Sid) : ℕ :=
  match h.refused i with
  | some conn => conn.closes
  | none => (h.server.thread i).conn.closes

end Host

/-- The workers' part of a history. -/
def served (es : List HostEvent) : List Event :=
  es.filterMap fun
    | .work e => some e
    | .start i conn status => if (startClientThread conn status).1 then some ⟨i, 0, .accept conn⟩ else none

namespace Server

variable {es : List Event} {s : Server}

/-- A worker closes its descriptor at the end just if its client logged in as a sender. -/
theorem thread_closes (hrun : Run Server.Step {} es s) (i : Sid) :
    (s.thread i).Closes (SenderLogin i es) := by
  refine hrun.invariant (fun es s => ∀ i, (s.thread i).Closes (SenderLogin i es)) (fun i => ?_) ?_ i
  · exact ⟨rfl, by simp [SenderLogin]⟩
  intro es s e s' hrun ih hs i
  obtain ⟨j, n, a⟩ := e
  obtain ⟨hacts, -⟩ : s.Acts j a s' ∧ n = (s'.thread j).serial := hs.acts
  by_cases hi : i = j
  · subst hi
    have hhand : ∀ msg ∈ (s.thread i).pc.inHand, msg.tag ≠ tagErr := fun msg hmsg => by
      rw [tag_of_inHand hrun hmsg]
      decide
    refine ((ih i).step hacts.step (isOpen hrun i) hhand).congr ?_
    unfold SenderLogin
    constructor
    · rintro ⟨k, m, hmem, htag⟩
      rcases List.mem_append.mp hmem with hold | hnew
      · exact .inl ⟨k, m, hold, htag⟩
      · obtain ⟨-, rfl⟩ : k = n ∧ .login (some m) = a := by simpa using hnew
        exact .inr ⟨m, rfl, htag⟩
    · rintro (⟨k, m, hmem, htag⟩ | ⟨m, rfl, htag⟩)
      · exact ⟨k, m, List.mem_append_left _ hmem, htag⟩
      · exact ⟨n, m, by simp, htag⟩
  · rw [hacts.frame i hi]
    exact (ih i).congr (by simp [SenderLogin, hi])

end Server

namespace Host

variable {es : List HostEvent} {h : Host}

/-- The clients without a worker have no part in the run of the server, and keep their descriptors
open. -/
theorem project (hrun : Run Step {} es h) : Run Server.Step {} (served es) h.server ∧
    ∀ i conn, h.refused i = some conn → (h.server.thread i).pc = .unborn ∧ conn.closes = 0 := by
  refine hrun.invariant (fun es h => Run Server.Step {} (served es) h.server ∧
    ∀ i conn, h.refused i = some conn → (h.server.thread i).pc = .unborn ∧ conn.closes = 0)
    ⟨.nil, nofun⟩ ?_
  intro es h e h' _ ⟨hserver, hrefused⟩ hs
  have happend : served (es ++ [e]) = served es ++ served [e] := List.filterMap_append
  cases hs with
  | @work e s haccept hs =>
    rw [happend]
    refine ⟨.snoc hserver hs, fun i conn hi => ?_⟩
    obtain ⟨hpc, hzero⟩ := hrefused i conn hi
    obtain ⟨hacts, -⟩ := hs.acts
    have hother : i ≠ e.session := fun heq => by
      subst heq
      have hstep := hacts.step
      generalize s.thread e.session = t at hstep
      generalize e.action = a at hstep haccept
      cases hstep with
      | inner hstep => cases hstep <;> simp_all
      | accept fd reads writes => exact haccept _ rfl
      | subscript hpc' => rcases hpc' with hpc' | hpc' <;> simp [hpc] at hpc'
      | nullRoom hpc' => simp [hpc, Pc.derefs] at hpc'
      | _ => simp_all
    exact ⟨by rw [hacts.frame i hother]; exact hpc, hzero⟩
  | @start i conn status s hstatus hfree hs =>
    have hlast : served [.start i conn status] = [⟨i, 0, .accept conn⟩] := by simp [served, hstatus]
    rw [happend, hlast]
    refine ⟨.snoc hserver hs, fun j conn' hj => ?_⟩
    obtain ⟨hacts, -⟩ : h.server.Acts i (.accept conn) s ∧ 0 = (s.thread i).serial := hs.acts
    have hother : j ≠ i := fun heq => by simp [heq, hfree] at hj
    obtain ⟨hpc, hzero⟩ := hrefused j conn' hj
    exact ⟨by rw [hacts.frame j hother]; exact hpc, hzero⟩
  | @refuse i fd reads writes status hstatus halive hpc hfree =>
    have hlast : served [.start i (.ofFd fd reads writes) status] = [] := by simp [served, hstatus]
    rw [happend, hlast, List.append_nil]
    refine ⟨hserver, fun j conn hj => ?_⟩
    by_cases hji : j = i
    · subst hji
      have hconn : (startClientThread (.ofFd fd reads writes) status).2 = conn := by simpa using hj
      have hpositive : ¬ ((status : ℤ) < 0) := by omega
      refine ⟨hpc, ?_⟩
      rw [← hconn, startClientThread, if_neg hpositive]
      rfl
    · exact hrefused j conn (by simpa [hji] using hj)

/-- When the handling of a client is over, its descriptor has been closed exactly once just if it
logged in as a sender. -/
theorem closed_iff_sender (hrun : Run Step {} es h) {i : Sid} (hover : h.Over i) :
    h.closes i = 1 ↔ SenderLogin i (served es) := by
  obtain ⟨hserver, hrefused⟩ := project hrun
  unfold closes
  cases hi : h.refused i with
  | some conn =>
    obtain ⟨hpc, hzero⟩ := hrefused i conn hi
    have hfresh := Server.unborn_fresh hserver hpc
    refine iff_of_false (by simp [hzero]) ?_
    rintro ⟨n, m, hmem, -⟩
    exact hfresh _ hmem rfl
  | none =>
    have hdone : (h.server.thread i).pc = .done := hover.resolve_right (by simp [hi])
    have hcloses : (h.server.thread i).conn.closes = 1 ∧ SenderLogin i (served es) ∨
        (h.server.thread i).conn.closes = 0 ∧ ¬ SenderLogin i (served es) := by
      simpa only [Thread.Closes, hdone] using Server.thread_closes hserver i
    rcases hcloses with ⟨hone, hsender⟩ | ⟨hzero, hno⟩
    · exact iff_of_true hone hsender
    · exact iff_of_false (by simp [hzero]) hno

/-- The event of the host for an event of the server. -/
def ofServer (e : Event) : HostEvent :=
  match e.action with
  | .accept conn => .start e.session conn 0
  | _ => .work e

/-- A run of the server is one of the host in which every client got its worker. -/
theorem lift {es : List Event} {s : Server} (hrun : Run Server.Step {} es s) :
    Run Step {} (es.map ofServer) { server := s } := by
  induction hrun with
  | nil => exact .nil
  | @snoc es s e s' hr hs ih =>
    rw [List.map_append, List.map_singleton]
    refine .snoc ih ?_
    obtain ⟨i, n, a⟩ := e
    obtain ⟨hacts, hserial⟩ : s.Acts i a s' ∧ n = (s'.thread i).serial := hs.acts
    by_cases haccept : ∃ conn, a = .accept conn
    · obtain ⟨conn, rfl⟩ := haccept
      have hzero : n = 0 := by
        rw [hserial]
        have hstep := hacts.step
        generalize s'.thread i = t at hstep
        cases hstep with
        | inner hstep => cases hstep
        | accept => rfl
      subst hzero
      exact .start rfl rfl hs
    · have hwork : ofServer ⟨i, n, a⟩ = .work ⟨i, n, a⟩ := by
        cases a with
        | accept conn => exact absurd ⟨conn, rfl⟩ haccept
        | _ => rfl
      rw [hwork]
      exact .work (fun conn heq => haccept ⟨conn, heq⟩) hs

/-- A client whose first line is no login. -/
private def stranger : List Sched := .client 0 "hello\n" :: Sched.steps 0 2

/-- A stranger turned away, and a client that no thread could be created for. -/
theorem left_open : ∃ es h, Run Step {} es h ∧ h.Over 0 ∧ h.closes 0 = 0 ∧
    (∃ conn, .start 1 conn 11 ∈ es) ∧ h.Over 1 ∧ h.closes 1 = 0 := by
  obtain ⟨⟨es, s⟩, h⟩ :=
    Option.isSome_iff_exists.mp (show (Server.outcome stranger).isSome = true by decide)
  have hdone : (Server.outcome stranger).map (fun p => (p.2.thread 0).pc) = some .done := rfl
  have hcloses : (Server.outcome stranger).map (fun p => (p.2.thread 0).conn.closes) = some 0 := rfl
  have hborn : (Server.outcome stranger).map (fun p => (p.2.thread 1).pc) = some .unborn := rfl
  have halive : (Server.outcome stranger).map (fun p => p.2.fault) = some none := rfl
  rw [h] at hdone hcloses hborn halive
  have hrefuse : Step { server := s } (.start 1 (.ofFd 5 [] []) (11 : ℕ)) _ :=
    .refuse 5 [] [] rfl (Option.some.inj halive) (Option.some.inj hborn) rfl
  refine ⟨_, _, .snoc (lift (Server.run_of_outcome h)) hrefuse, .inl (Option.some.inj hdone),
    Option.some.inj hcloses, ⟨.ofFd 5 [] [], List.mem_append_right _ List.mem_cons_self⟩, .inr rfl, rfl⟩

theorem closed_iff_sender_stranger : ∃ es h, Run Step {} es h ∧ h.Over 0 ∧
    ¬ SenderLogin 0 (served es) := by
  obtain ⟨⟨es, s⟩, h⟩ :=
    Option.isSome_iff_exists.mp (show (Server.outcome stranger).isSome = true by decide)
  have hdone : (Server.outcome stranger).map (fun p => (p.2.thread 0).pc) = some .done := rfl
  have hcloses : (Server.outcome stranger).map (fun p => (p.2.thread 0).conn.closes) = some 0 := rfl
  rw [h] at hdone hcloses
  have hrun := lift (Server.run_of_outcome h)
  have hover : Over { server := s } 0 := .inl (Option.some.inj hdone)
  have hzero : closes { server := s } 0 = 0 := Option.some.inj hcloses
  refine ⟨_, _, hrun, hover, fun hsender => ?_⟩
  have hone := (closed_iff_sender hrun hover).mpr hsender
  omega

end Host
end Chat
