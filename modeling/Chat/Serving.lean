import Chat.Codec
import Chat.Reading
import Chat.SenderSession

/-! A sender session from one request to the next: it waits for a request, works on it, and sends
one reply. -/
namespace Chat
open Transition

/-- The session waits in `receive`. -/
def Pc.reading : Pc → Bool
  | .login | .receive => true
  | _ => false

/-- The action has to do neither with the client nor with a fault. -/
def Action.silent : Action → Bool
  | .login _ | .loginReply _ _ | .receive _ | .reply _ _ | .deliver _ _ | .fault _ => false
  | _ => true

namespace Thread

/-- The session of a sender waits for its next request, or is about to. -/
def Ready (t : Thread) : Prop :=
  match t.pc with
  | .unborn | .login => True
  | .newUser => t.msg.tag = tagSlogin
  | .receive => t.role = .sender
  | _ => False

/-- The session of a sender has taken its login. -/
def Greeting (t : Thread) : Prop := t.pc = .loginReply true ∧ t.msg.tag = tagSlogin

/-- The session of a sender works on a request, which is the `last` one if it is a quit. -/
def Serving (last : Bool) (t : Thread) : Prop :=
  t.role = .sender ∧ match t.pc with
    | .removeMember _ | .findOrCreateRoom _ | .addMember _ | .memberExists | .broadcast _ =>
      last = false
    | .reply resp resume =>
      resp.Fits ∧ resp.tag ≠ tagDelivery ∧ resume = if last then .close else .loop
    | _ => False

/-- The session has nothing more to do with its client. -/
def Over (t : Thread) : Prop := t.pc = .close ∨ t.pc = .done

variable {i : Sid} {σ : Shared} {t t' : Thread} {a : Action} {last : Bool}

theorem Ready.step (h : t.Ready) (hopen : t.pc ≠ .unborn → t.conn.isOpen = true)
    (hpc : t.pc.reading = false) (ht : Step i σ t a t') : t'.Ready ∧ a.silent = true := by
  cases ht with
  | inner ht => cases ht <;> simp_all [Ready]
  | accept => exact ⟨trivial, rfl⟩
  | newSender hnew =>
    refine ⟨?_, rfl⟩
    simp [Ready, loopHead, hopen (by simp [hnew])]
  | newReceiver hnew htag => exact absurd (by simpa only [Ready, hnew] using h) htag
  | subscript hread => rcases hread with hread | hread <;> simp [hread, Pc.reading] at hpc
  | nullRoom hderef =>
    unfold Ready at h
    generalize t.pc = pc at h hderef
    cases pc <;> first | exact h.elim | cases hderef
  | _ => simp_all [Ready, Pc.reading]

theorem Over.step (h : t.Over) (ht : Step i σ t a t') : t'.Over ∧ a.silent = true := by
  rcases h with hpc | hpc
  · cases ht with
    | inner ht => cases ht <;> simp_all
    | close => exact ⟨.inr rfl, rfl⟩
    | subscript hread => simp [hpc] at hread
    | nullRoom hderef => simp [hpc, Pc.derefs] at hderef
    | _ => simp_all
  · cases ht with
    | inner ht => cases ht <;> simp_all
    | subscript hread => simp [hpc] at hread
    | nullRoom hderef => simp [hpc, Pc.derefs] at hderef
    | _ => simp_all

/-- A login is answered with success. -/
theorem Greeting.step (h : t.Greeting) (ht : Step i σ t a t') :
    ∃ sent, a = .loginReply (loginSuccess tagSlogin) sent ∧ t'.Ready := by
  obtain ⟨hpc, htag⟩ := h
  cases ht with
  | inner ht => cases ht <;> simp_all
  | @loginReply accepted resp sent conn hreply _ hresp =>
    obtain rfl : true = accepted := by simpa [hpc] using hreply
    exact ⟨sent, by simp [hresp, htag], htag⟩
  | subscript hread => simp [hpc] at hread
  | nullRoom hderef => simp [hpc, Pc.derefs] at hderef
  | _ => simp_all

private theorem serving_reply (hrole : t.role = .sender) {resp : Message}
    (hpc : t.pc = .reply resp .loop) (hfits : resp.Fits) (htag : resp.tag ≠ tagDelivery) :
    t.Serving false := by
  simp [Serving, hrole, hpc, hfits, htag]

/-- Each branch of `chat_with_sender` comes to its one reply. -/
theorem Serving.step (h : t.Serving last) (hopen : t.conn.isOpen = true)
    (hroom : t.pc.derefs = true → t.room ≠ none) (ht : Step i σ t a t') :
    t'.Serving last ∧ a.silent = true ∨
      ∃ resp sent, a = .reply resp sent ∧ resp.Fits ∧ resp.tag ≠ tagDelivery ∧
        if last then t'.Over else t'.Ready := by
  obtain ⟨hrole, hpc⟩ := h
  cases ht with
  | inner ht => cases ht <;> simp_all [Serving, Action.silent]
  | @removeRelease r hp =>
    rw [hp] at hpc
    obtain rfl : last = false := hpc
    refine .inl ⟨?_, rfl⟩
    by_cases hjoin : t.msg.tag = tagJoin
    · simp [Serving, hrole, hjoin]
    · exact serving_reply hrole (by simp [hjoin]) (by decide : leaveOk.Fits) (by decide)
  | addRelease hp =>
    rw [hp] at hpc
    obtain rfl : last = false := hpc
    exact .inl ⟨serving_reply hrole rfl (by decide : joinOk.Fits) (by decide), rfl⟩
  | @memberExists r found hp =>
    rw [hp] at hpc
    obtain rfl : last = false := hpc
    refine .inl ⟨?_, rfl⟩
    by_cases hleave : t.msg.tag = tagLeave
    · cases found with
      | true => simp [Serving, hrole, hleave]
      | false =>
        exact serving_reply hrole (by simp [hleave]) (by decide : leaveError.Fits) (by decide)
    · cases found with
      | true => simp [Serving, hrole, hleave]
      | false =>
        exact serving_reply hrole (by simp [hleave]) (by decide : sendallError.Fits) (by decide)
  | loopEnd hp =>
    rw [hp] at hpc
    obtain rfl : last = false := hpc
    exact .inl ⟨serving_reply hrole rfl (by decide : sendallOk.Fits) (by decide), rfl⟩
  | @reply resp resume sent conn hp hsend =>
    rw [hp] at hpc
    obtain ⟨hfits, htag, rfl⟩ := hpc
    refine .inr ⟨resp, sent, rfl, hfits, htag, ?_⟩
    have hopen' : conn.isOpen = true := by
      unfold Connection.isOpen at hopen ⊢
      rwa [(Connection.send_frame hsend).1]
    cases last with
    | true => exact .inl rfl
    | false => simp [Ready, loopHead, hopen', hrole]
  | subscript hread => rcases hread with hread | hread <;> simp [hread] at hpc
  | nullRoom hderef hnone => exact absurd hnone (hroom hderef)
  | _ => simp_all

/-- A session that waits does nothing else. -/
theorem Step.not_silent (h : Step i σ t a t') (hpc : t.pc.reading = true) : a.silent = false := by
  cases h with
  | inner h => cases h <;> simp_all [Pc.reading]
  | loginFail | loginOk | receiveFail | receiveOk | subscript => rfl
  | nullRoom | emptyQueue => rfl
  | _ => simp_all [Pc.reading]

/-- A silent step leaves the connection as it is, unless the connection is new. -/
theorem Step.silent (h : Step i σ t a t') (hok : t.Ok) (ha : a.silent = true) :
    t'.calls = t.calls ∧ a.sent = none ∧ (∀ n, heard i [⟨i, n, a⟩] = []) ∧
      ((∃ conn, a = .accept conn ∧ t.pc = .unborn ∧ t'.conn = conn ∧ conn.wire.written = []) ∨
        t.pc ≠ .unborn ∧ t'.conn.wire = t.conn.wire ∧ t'.conn.mFdbuf = t.conn.mFdbuf) := by
  have hsent : a.sent = none := by cases a <;> first | rfl | cases ha
  have hheard (n : ℕ) : heard i [⟨i, n, a⟩] = [] := by cases a <;> first | rfl | cases ha
  rcases h.reads hok with ⟨conn, rfl, hpc, hconn, hcalls, -⟩ |
    ⟨hpc, ⟨_, _, _, -, -, ⟨rfl, -⟩ | ⟨rfl, -⟩⟩ | ⟨-, hbuf, hcalls, -⟩⟩
  · have hzero : t.calls = 0 := by simp [calls, hpc, Pc.fresh]
    refine ⟨hcalls.trans hzero.symm, hsent, hheard, .inl ⟨conn, rfl, hpc, hconn, ?_⟩⟩
    cases h with
    | inner h => cases h
    | accept => rfl
  · cases ha
  · cases ha
  · refine ⟨hcalls, hsent, hheard, .inr ⟨hpc, ?_, hbuf⟩⟩
    rcases h.wire.2 with ⟨_, _, hunborn, -⟩ | ⟨-, -, hwire⟩
    · exact absurd hunborn hpc
    · simpa [hsent, Wire.sendAll, eq_comm] using hwire

/-- The branch for a message begins with work or with the reply. -/
private theorem serving_dispatch {req : Message} (hrole : t.role = .sender)
    (hpc : Dispatch t.role t.room req.tag t.pc) : t.Serving (req.tag = tagQuit) := by
  refine ⟨hrole, ?_⟩
  generalize t.pc = pc at hpc
  cases hpc with
  | quit _ htag => exact ⟨by decide, by decide, by simp [htag]⟩
  | rejoin _ htag | join _ htag => simp [htag, show tagJoin ≠ tagQuit by decide]
  | leave _ htag => simp [htag, show tagLeave ≠ tagQuit by decide]
  | sendall _ htag => simpa using htag
  | outside _ htag => exact ⟨by decide, by decide, by simp [htag]⟩
  | firstJoin hrec | notJoin hrec => simp [hrole] at hrec

/-- A session that waits takes a request that is there. -/
theorem Ready.receives (h : t.Ready) {c : Choice} (hnext : t.next i σ c = some (a, t'))
    {req : Message} {more : Bytes} (hpc : t.pc.reading = true) (hfits : req.Fits)
    (htag : req.tag ≠ tagDelivery)
    (hst : t.conn.mFdbuf.stream = Connection.encode req ++ more) :
    t.pc = .login ∧ a = .login (some req.received) ∧ (req.tag = tagSlogin → t'.Greeting) ∨
      t.pc = .receive ∧ a = .receive (some req.received) ∧ t'.Serving (req.tag = tagQuit) := by
  obtain ⟨conn, hrec, -⟩ := hfits.receive htag hst c.buffer {}
  cases hp : t.pc with
  | login =>
    obtain ⟨rfl, rfl⟩ := by simpa [next, hp, hrec] using hnext
    refine .inl ⟨rfl, rfl, fun hslogin => ⟨?_, hslogin⟩⟩
    simp [Message.received, hslogin]
  | receive =>
    obtain ⟨rfl, rfl⟩ := by simpa [next, hp, hrec] using hnext
    refine .inr ⟨rfl, rfl, ?_⟩
    have hrole : t.role = .sender := by simpa only [Ready, hp] using h
    exact serving_dispatch hrole (dispatch_cases _ _ _)
  | _ => simp [hp, Pc.reading] at hpc

end Thread

/-- A step of a session that has begun is one of its code. -/
theorem Server.next_run {s s' : Server} {c : Sched} {e : Event} (h : s.next c = some (e, s'))
    (hpc : (s.thread e.session).pc ≠ .unborn) :
    ∃ c, (s.thread e.session).next e.session s.shared c = some (e.action, s'.thread e.session) := by
  have halive : s.fault = none := by
    obtain ⟨_, _, _, _, halive, -⟩ := Server.Step.move ⟨c, h⟩
    exact halive
  cases c with
  | accept i fd reads writes =>
    cases hborn : (s.thread i).pc with
    | unborn =>
      obtain ⟨rfl, rfl⟩ := by simpa [next, halive, hborn] using h
      exact absurd hborn hpc
    | _ => simp [next, halive, hborn] at h
  | run i c =>
    cases hnext : (s.thread i).next i s.shared c with
    | none => simp [next, halive, hnext] at h
    | some p =>
      cases happly : s.shared.apply i p.1 with
      | none => simp [next, halive, hnext, happly] at h
      | some σ =>
        obtain ⟨rfl, rfl⟩ := by simpa [next, halive, hnext, happly] using h
        exact ⟨c, by simp [hnext]⟩

/-- The descriptor of a session that is not done is not closed. -/
theorem Server.closes_eq {es : List Event} {s : Server} (hrun : Run Server.Step {} es s) (i : Sid)
    (hpc : (s.thread i).pc ≠ .done) : (s.thread i).conn.closes = 0 := by
  refine @thread_invariant (fun t => t.pc ≠ .done → t.conn.closes = 0) (fun _ => rfl) ?_ _ _
    hrun i hpc
  intro i σ t a t' ht h hpc'
  cases ht with
  | inner ht => cases ht <;> exact h (by simp [*])
  | accept => rfl
  | loginFail hpc hrec | loginOk hpc hrec | receiveFail hpc hrec | receiveOk hpc hrec =>
    exact (Connection.receive_frame hrec).2.2.trans (h (by simp [hpc]))
  | loginReply hpc hsend | reply hpc hsend | deliver hpc hsend =>
    exact (Connection.send_frame hsend).2.2.trans (h (by simp [hpc]))
  | close => exact absurd rfl hpc'
  | subscript | nullRoom | emptyQueue => exact h hpc'
  | _ => exact h (by simp [*])

end Chat
