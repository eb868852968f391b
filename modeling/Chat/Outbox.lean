import Chat.Inbox
import Chat.Wire

/-! What a session sends, and what that leaves on its connection's wire. -/
namespace Chat
open Transition

/-- What an action passes to `send`, and whether `send` returns true. -/
def Action.sent : Action → Option (Message × Bool)
  | .loginReply msg sent | .reply msg sent | .deliver msg sent => some (msg, sent)
  | _ => none

/-- Everything that session `u` has passed to `send`. -/
def sends (u : Sid) (es : List Event) : List (Message × Bool) :=
  es.filterMap fun e => if e.session = u then e.action.sent else none

@[simp] theorem sends_append (u : Sid) (es es' : List Event) :
    sends u (es ++ es') = sends u es ++ sends u es' :=
  List.filterMap_append

theorem sends_own (u : Sid) (n : ℕ) (a : Action) : sends u [⟨u, n, a⟩] = a.sent.toList := by
  cases h : a.sent <;> simp [sends, h]

theorem sends_other {u : Sid} {e : Event} (h : e.session ≠ u) : sends u [e] = [] := by
  simp [sends, h]

namespace Thread

variable {i : Sid} {σ : Shared} {t t' : Thread} {a : Action}

/-- A step changes the wire by what it sends. -/
theorem Step.wire (h : Step i σ t a t') : t'.pc ≠ .unborn ∧
    ((∃ conn, a = .accept conn ∧ t.pc = .unborn ∧ t'.conn = conn) ∨
      t.pc ≠ .unborn ∧ (∀ conn, a ≠ .accept conn) ∧
        t.conn.wire.sendAll (a.sent.toList.map Prod.fst) =
          (a.sent.toList.map Prod.snd, t'.conn.wire)) := by
  have sending {msg : Message} {sent : Bool} {conn : Connection}
      (hsend : t.conn.send msg = (sent, conn)) :
      t.conn.wire.sendAll [msg] = ([sent], conn.wire) := by
    obtain ⟨r, hr⟩ := t.conn.send_wire msg
    obtain ⟨rfl, rfl⟩ := Prod.mk.inj (hr.symm.trans hsend)
    rfl
  have born {pc : Pc} (hpc : pc.idle = true) : pc ≠ .unborn := fun hunborn => by
    simp [hunborn, Pc.idle] at hpc
  cases h with
  | inner h =>
    cases h <;> exact ⟨Pc.noConfusion, .inr ⟨by simp [*], fun _ => Action.noConfusion, rfl⟩⟩
  | accept fd reads writes hpc => exact ⟨Pc.noConfusion, .inl ⟨_, rfl, hpc, rfl⟩⟩
  | loginFail hpc hrec | loginOk hpc hrec | receiveFail hpc hrec =>
    refine ⟨Pc.noConfusion, .inr ⟨by simp [hpc], fun _ => Action.noConfusion, ?_⟩⟩
    simp [Action.sent, Wire.sendAll, (Connection.receive_frame hrec).2.1]
  | receiveOk hpc hrec =>
    refine ⟨born (dispatch_idle _ _ _), .inr ⟨by simp [hpc], fun _ => Action.noConfusion, ?_⟩⟩
    simp [Action.sent, Wire.sendAll, (Connection.receive_frame hrec).2.1]
  | @loginReply accepted _ _ _ hpc hsend =>
    refine ⟨?_, .inr ⟨by simp [hpc], fun _ => Action.noConfusion, sending hsend⟩⟩
    cases accepted <;> exact Pc.noConfusion
  | @reply resp resume _ _ hpc hsend =>
    exact ⟨born (resumed_idle _ resume),
      .inr ⟨by simp [hpc], fun _ => Action.noConfusion, sending hsend⟩⟩
  | deliver hpc hsend =>
    exact ⟨born (loopHead_idle _),
      .inr ⟨by simp [hpc], fun _ => Action.noConfusion, sending hsend⟩⟩
  | newSender hpc =>
    exact ⟨born (loopHead_idle _), .inr ⟨by simp [hpc], fun _ => Action.noConfusion, rfl⟩⟩
  | removeRelease hpc =>
    exact ⟨born (removed_idle _), .inr ⟨by simp [hpc], fun _ => Action.noConfusion, rfl⟩⟩
  | memberExists hpc =>
    exact ⟨born (exists_idle _ _), .inr ⟨by simp [hpc], fun _ => Action.noConfusion, rfl⟩⟩
  | dequeueEnd hpc =>
    exact ⟨born (dequeued_idle _ _), .inr ⟨by simp [hpc], fun _ => Action.noConfusion, rfl⟩⟩
  | newReceiver hpc | addRelease hpc | loopEnd hpc =>
    exact ⟨Pc.noConfusion, .inr ⟨by simp [hpc], fun _ => Action.noConfusion, rfl⟩⟩
  | close hpc =>
    refine ⟨Pc.noConfusion, .inr ⟨by simp [hpc], fun _ => Action.noConfusion, ?_⟩⟩
    unfold Connection.close
    split <;> rfl
  | subscript hpc =>
    have hborn : t.pc ≠ .unborn := by rcases hpc with hpc | hpc <;> simp [hpc]
    exact ⟨hborn, .inr ⟨hborn, fun _ => Action.noConfusion, rfl⟩⟩
  | nullRoom hpc =>
    have hborn : t.pc ≠ .unborn := fun hunborn => by simp [hunborn, Pc.derefs] at hpc
    exact ⟨hborn, .inr ⟨hborn, fun _ => Action.noConfusion, rfl⟩⟩
  | emptyQueue hpc =>
    have hborn : t.pc ≠ .unborn := by simp [hpc]
    exact ⟨hborn, .inr ⟨hborn, fun _ => Action.noConfusion, rfl⟩⟩

/-- What a receiver session has sent: the two replies that it owes its client, and then what it
has taken from its queue. -/
def Mail (ss ds : List (Message × Bool)) (t : Thread) : Prop :=
  match t.pc with
  | .unborn | .login => ss = [] ∧ ds = []
  | .loginReply accepted =>
    ss = [] ∧ ds = [] ∧ (accepted = true → t.msg.tag = tagSlogin ∨ t.msg.tag = tagRlogin)
  | .newUser => (∃ b, ss = [(loginSuccess t.msg.tag, b)]) ∧ ds = [] ∧
      (t.msg.tag = tagSlogin ∨ t.msg.tag = tagRlogin)
  | .receive | .findOrCreateRoom _ | .addMember _ =>
    t.role = .receiver → (∃ b, ss = [(loginSuccess tagRlogin, b)]) ∧ ds = []
  | .reply resp resume => t.role = .receiver →
    (∃ b, ss = [(loginSuccess tagRlogin, b)]) ∧ ds = [] ∧ (resume = .loop → resp = joinOk)
  | .dequeue _ | .deliver _ => ∃ b b', ss = (loginSuccess tagRlogin, b) :: (joinOk, b') :: ds
  | .close | .done => t.role = .receiver → ds = [] ∨
      ∃ b b', ss = (loginSuccess tagRlogin, b) :: (joinOk, b') :: ds
  | .removeMember _ | .memberExists | .broadcast _ => True

private theorem mail_loopHead {ss ds : List (Message × Bool)} {t t' : Thread}
    (hpc : t'.pc = t.loopHead) (hrole : t'.role = t.role)
    (h : t.role = .receiver → ∃ b b', ss = (loginSuccess tagRlogin, b) :: (joinOk, b') :: ds) :
    t'.Mail ss ds := by
  unfold Mail
  rw [hpc]
  rcases t.loopHead_cases with hhead | ⟨hsender, hhead⟩ | ⟨hreceiver, hhead⟩
  · rw [hhead]
    exact fun hr => .inr (h (hrole ▸ hr))
  · rw [hhead]
    intro hr
    simp [hrole, hsender] at hr
  · rw [hhead]
    exact h hreceiver

private theorem mail_dispatch {ss ds : List (Message × Bool)} {t' : Thread} {m : Message}
    (hpc : Dispatch t.role t.room m.tag t'.pc) (hrole : t'.role = t.role)
    (h : t.role = .receiver → (∃ b, ss = [(loginSuccess tagRlogin, b)]) ∧ ds = []) :
    t'.Mail ss ds := by
  unfold Mail
  rw [hrole]
  generalize t'.pc = pc at hpc
  cases hpc with
  | quit hsender | outside hsender => exact fun hr => by simp [hsender] at hr
  | join | firstJoin => exact h
  | notJoin => exact fun hr => ⟨(h hr).1, (h hr).2, fun hloop => by cases hloop⟩
  | rejoin | leave | sendall => trivial

/-- A reply after which the loop goes on is the second of the two. -/
private theorem mail_reply {ss ds : List (Message × Bool)} {resp : Message} {resume : Resume}
    {sent : Bool} {conn : Connection} (h : t.Mail ss ds) : t.pc = .reply resp resume → ({ t with
      conn
      pc := match resume with
        | .loop => ({ t with conn } : Thread).loopHead
        | .close => .close
        | .ret => .done } : Thread).Mail (ss ++ [(resp, sent)]) ds := by
  intro hpc
  have hmail : t.role = .receiver → (∃ b, ss = [(loginSuccess tagRlogin, b)]) ∧ ds = [] ∧
      (resume = .loop → resp = joinOk) := by simpa only [Mail, hpc] using h
  cases resume with
  | loop =>
    refine mail_loopHead rfl rfl fun hr => ?_
    obtain ⟨⟨b, rfl⟩, rfl, hresp⟩ := hmail hr
    exact ⟨b, sent, by rw [hresp rfl]; rfl⟩
  | close | ret => exact fun hr => .inl (hmail hr).2.1

theorem Mail.step {ss ds : List (Message × Bool)} (h : t.Mail ss ds) (hok : t.Ok)
    (ht : Step i σ t a t') (htag : ∀ msg ∈ t.pc.inHand, msg.tag ≠ tagErr) (n : ℕ) :
    t'.Mail (ss ++ a.sent.toList) (ds ++ deliveries i [⟨i, n, a⟩]) := by
  have quiet (ha : a.sent = none) (hdel : deliveries i [⟨i, n, a⟩] = []) (h' : t'.Mail ss ds) :
      t'.Mail (ss ++ a.sent.toList) (ds ++ deliveries i [⟨i, n, a⟩]) := by
    rw [ha, hdel]
    simpa using h'
  cases ht with
  | inner ht =>
    cases ht with
    | removeAcquire | removeBody | broadcastAcquire | broadcastStart | visitOther | visitSame
    | enqueue | enqueueEnd => exact quiet rfl rfl trivial
    | findAcquire hpc | findBody hpc | findRelease hpc | addAcquire hpc | addBody hpc
    | dequeue hpc => exact quiet rfl rfl (by simpa only [Mail, hpc] using h)
  | accept _ _ _ hpc => exact quiet rfl rfl (by simpa only [Mail, hpc] using h)
  | loginFail hpc =>
    obtain ⟨rfl, rfl⟩ : ss = [] ∧ ds = [] := by simpa only [Mail, hpc] using h
    exact quiet rfl rfl ⟨rfl, rfl, fun h => by cases h⟩
  | @loginOk buffer msg conn hpc =>
    obtain ⟨rfl, rfl⟩ : ss = [] ∧ ds = [] := by simpa only [Mail, hpc] using h
    exact quiet rfl rfl ⟨rfl, rfl, of_decide_eq_true⟩
  | @loginReply accepted resp sent conn hpc _ hresp =>
    obtain ⟨rfl, rfl, hlogin⟩ : ss = [] ∧ ds = [] ∧
        (accepted = true → t.msg.tag = tagSlogin ∨ t.msg.tag = tagRlogin) := by
      simpa only [Mail, hpc] using h
    cases accepted with
    | true =>
      obtain rfl : resp = loginSuccess t.msg.tag := hresp
      exact ⟨⟨sent, rfl⟩, rfl, hlogin rfl⟩
    | false => exact fun _ => .inl rfl
  | newSender hpc =>
    exact quiet rfl rfl (mail_loopHead rfl rfl fun hr => by cases hr)
  | newReceiver hpc htag' =>
    obtain ⟨hss, rfl, hlogin⟩ : (∃ b, ss = [(loginSuccess t.msg.tag, b)]) ∧ ds = [] ∧
        (t.msg.tag = tagSlogin ∨ t.msg.tag = tagRlogin) := by simpa only [Mail, hpc] using h
    rw [hlogin.resolve_left htag'] at hss
    exact quiet rfl rfl fun _ => ⟨hss, rfl⟩
  | receiveFail hpc =>
    have hmail : t.role = .receiver → (∃ b, ss = [(loginSuccess tagRlogin, b)]) ∧ ds = [] := by
      simpa only [Mail, hpc] using h
    refine quiet rfl rfl fun hr => ⟨(hmail hr).1, (hmail hr).2, fun hloop => ?_⟩
    have hrole : t.role = .receiver := hr
    simp [hrole] at hloop
  | @receiveOk buffer msg conn hpc =>
    have hmail : t.role = .receiver → (∃ b, ss = [(loginSuccess tagRlogin, b)]) ∧ ds = [] := by
      simpa only [Mail, hpc] using h
    exact quiet rfl rfl (mail_dispatch (dispatch_cases _ _ _) rfl hmail)
  | removeRelease hpc =>
    obtain ⟨hrole, -⟩ : t.role = .sender ∧ t.room ≠ none := by simpa [Ok, hpc] using hok
    refine quiet rfl rfl ?_
    by_cases hjoin : t.msg.tag = tagJoin <;> simp [Mail, hjoin, hrole]
  | addRelease hpc =>
    have hmail : t.role = .receiver → (∃ b, ss = [(loginSuccess tagRlogin, b)]) ∧ ds = [] := by
      simpa only [Mail, hpc] using h
    exact quiet rfl rfl fun hr => ⟨(hmail hr).1, (hmail hr).2, fun _ => rfl⟩
  | @memberExists r found hpc hroom =>
    have hrole : t.role = .sender := by simpa [Ok, hpc, hroom] using hok
    refine quiet rfl rfl ?_
    by_cases hleave : t.msg.tag = tagLeave <;> cases found <;> simp [Mail, hleave, hrole]
  | loopEnd hpc =>
    obtain ⟨hrole, -⟩ : t.role = .sender ∧ t.room ≠ none := by simpa [Ok, hpc] using hok
    exact quiet rfl rfl fun hr => by simp [hrole] at hr
  | @reply resp resume sent conn hpc =>
    have hdel : deliveries i [⟨i, n, .reply resp sent⟩] = [] := rfl
    rw [hdel, List.append_nil]
    exact mail_reply h hpc
  | @dequeueEnd res hpc =>
    have hmail : ∃ b b', ss = (loginSuccess tagRlogin, b) :: (joinOk, b') :: ds := by
      simpa only [Mail, hpc] using h
    refine quiet rfl rfl ?_
    cases res with
    | none => exact mail_loopHead rfl rfl fun _ => hmail
    | some msg =>
      have hne : msg.tag ≠ tagErr := htag msg (by simp [hpc, Pc.inHand])
      simpa only [Mail, hne, if_false] using hmail
  | @deliver msg sent conn hpc =>
    obtain ⟨b, b', rfl⟩ : ∃ b b', ss = (loginSuccess tagRlogin, b) :: (joinOk, b') :: ds := by
      simpa only [Mail, hpc] using h
    have hdel : deliveries i [⟨i, n, .deliver msg sent⟩] = [(msg, sent)] := by simp [deliveries]
    rw [hdel]
    exact mail_loopHead rfl rfl fun _ => ⟨b, b', rfl⟩
  | close hpc =>
    have hmail : t.role = .receiver → ds = [] ∨
        ∃ b b', ss = (loginSuccess tagRlogin, b) :: (joinOk, b') :: ds := by
      simpa only [Mail, hpc] using h
    exact quiet rfl rfl hmail
  | subscript | nullRoom | emptyQueue => exact quiet rfl rfl h

end Thread

namespace Server

variable {es : List Event} {s : Server}

/-- What is on a session's wire is what `send` made of the messages passed to it, from the
connection that was accepted. -/
theorem wire_of_sends (hrun : Run Server.Step {} es s) {u : Sid} {n : ℕ} {conn : Connection}
    (haccept : ⟨u, n, .accept conn⟩ ∈ es) :
    conn.wire.sendAll ((sends u es).map Prod.fst) =
      ((sends u es).map Prod.snd, (s.thread u).conn.wire) := by
  suffices hall : ((s.thread u).pc = .unborn → sends u es = [] ∧ ∀ n conn, ⟨u, n, .accept conn⟩ ∉ es) ∧
      ∀ n conn, ⟨u, n, .accept conn⟩ ∈ es → conn.wire.sendAll ((sends u es).map Prod.fst) =
        ((sends u es).map Prod.snd, (s.thread u).conn.wire) from hall.2 n conn haccept
  refine hrun.invariant (fun es s => ∀ u,
    ((s.thread u).pc = .unborn → sends u es = [] ∧ ∀ n conn, ⟨u, n, .accept conn⟩ ∉ es) ∧
      ∀ n conn, ⟨u, n, .accept conn⟩ ∈ es → conn.wire.sendAll ((sends u es).map Prod.fst) =
        ((sends u es).map Prod.snd, (s.thread u).conn.wire)) (fun _ => ⟨fun _ => ⟨rfl, nofun⟩, nofun⟩) ?_ u
  intro es s e s' hrun ih hs u
  obtain ⟨i, k, a⟩ := e
  obtain ⟨hacts, -⟩ : s.Acts i a s' ∧ k = (s'.thread i).serial := hs.acts
  obtain ⟨hunborn, hwire⟩ := ih u
  by_cases hu : u = i
  · subst hu
    obtain ⟨hborn, ⟨conn, rfl, hpc, hconn⟩ | ⟨hpc, hno, hsend⟩⟩ := hacts.step.wire
    · obtain ⟨hnone, hfresh⟩ := hunborn hpc
      refine ⟨fun h => absurd h hborn, fun n conn' hmem => ?_⟩
      obtain ⟨-, rfl⟩ : n = k ∧ conn' = conn := by simpa [hfresh] using hmem
      simp [sends_own, hnone, Action.sent, Wire.sendAll, hconn]
    · refine ⟨fun h => absurd h hborn, fun n conn hmem => ?_⟩
      have hold : ⟨u, n, .accept conn⟩ ∈ es := by
        simpa [(hno conn).symm] using hmem
      rw [sends_append, sends_own, List.map_append, List.map_append, Wire.sendAll_append,
        hwire n conn hold, hsend]
  · have hiu : i ≠ u := fun h => hu h.symm
    rw [sends_append, sends_other hiu, List.append_nil, hacts.frame u hu]
    have hsame : ∀ n conn, (⟨u, n, .accept conn⟩ : Event) ∈ es ++ [⟨i, k, a⟩] ↔
        ⟨u, n, .accept conn⟩ ∈ es := fun n conn => by simp [hu]
    simp only [hsame]
    exact ⟨hunborn, hwire⟩

theorem mail (hrun : Run Server.Step {} es s) (u : Sid) :
    (s.thread u).Mail (sends u es) (deliveries u es) := by
  refine hrun.invariant (fun es s => ∀ u, (s.thread u).Mail (sends u es) (deliveries u es))
    (fun _ => ⟨rfl, rfl⟩) ?_ u
  intro es s e s' hrun ih hs u
  obtain ⟨i, k, a⟩ := e
  obtain ⟨hacts, -⟩ : s.Acts i a s' ∧ k = (s'.thread i).serial := hs.acts
  rw [sends_append, deliveries_append]
  by_cases hu : u = i
  · subst hu
    rw [sends_own]
    refine (ih u).step (ok hrun u) hacts.step (fun msg hmsg => ?_) k
    rw [tag_of_inHand hrun hmsg]
    decide
  · have hdel : deliveries u [⟨i, k, a⟩] = [] := by
      cases a <;> simp [deliveries, Ne.symm hu]
    rw [sends_other fun h => hu h.symm, hdel, List.append_nil, List.append_nil, hacts.frame u hu]
    exact ih u

/-- A receiver session has sent two replies before what it delivers. -/
theorem sends_of_deliveries (hrun : Run Server.Step {} es s) {u : Sid}
    (hrole : (s.thread u).role = .receiver) (hne : deliveries u es ≠ []) :
    ∃ b b', sends u es = (loginSuccess tagRlogin, b) :: (joinOk, b') :: deliveries u es := by
  have hmail := mail hrun u
  have hok := ok hrun u
  unfold Thread.Mail at hmail
  unfold Thread.Ok at hok
  generalize (s.thread u).pc = pc at hmail hok
  cases pc with
  | unborn | login => exact absurd hmail.2 hne
  | loginReply | newUser => exact absurd hmail.2.1 hne
  | receive | findOrCreateRoom | addMember => exact absurd (hmail hrole).2 hne
  | reply => exact absurd (hmail hrole).2.1 hne
  | dequeue | deliver => exact hmail
  | close | done => exact (hmail hrole).resolve_left hne
  | removeMember | memberExists | broadcast => simp [hrole] at hok

/-- The wire of a receiver's connection once its two replies are on it. -/
def afterJoin (conn : Connection) : Wire :=
  (conn.wire.sendAll [loginSuccess tagRlogin, joinOk]).2

/-- The results of a receiver's deliveries are those of sending its messages one after the
other. -/
theorem deliveries_sent (hrun : Run Server.Step {} es s) {u : Sid} {n : ℕ} {conn : Connection}
    (haccept : ⟨u, n, .accept conn⟩ ∈ es) (hrole : (s.thread u).role = .receiver) :
    ((afterJoin conn).sendAll ((deliveries u es).map Prod.fst)).1 =
      (deliveries u es).map Prod.snd := by
  by_cases hne : deliveries u es = []
  · rw [hne]
    rfl
  · obtain ⟨b, b', hsends⟩ := sends_of_deliveries hrun hrole hne
    have hwire := wire_of_sends hrun haccept
    have hsplit : (sends u es).map Prod.fst =
        [loginSuccess tagRlogin, joinOk] ++ (deliveries u es).map Prod.fst := by rw [hsends]; rfl
    rw [hsplit, Wire.sendAll_append, hsends] at hwire
    have hresults := (Prod.mk.inj hwire).1
    simp only [Wire.sendAll, List.map_cons, List.cons_append, List.nil_append,
      List.cons.injEq] at hresults
    exact hresults.2.2

end Server
end Chat
