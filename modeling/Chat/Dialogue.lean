import Chat.Conversation

/-! What a sender client and its session make of one another: the responses that the client gets, and what
it prints of them. -/
namespace Chat
open Transition Lines

namespace Sender

/-- The response to a command of a client that is in `room`. -/
def answer (room : Option Bytes) : Command → Message
  | .join _ => joinOk
  | .leave => if room = none then leaveError else leaveOk
  | .quit => quitOk
  | .sendall _ => if room = none then sendallError else sendallOk

/-- The responses to some lines. -/
def answers : Option Bytes → List Bytes → List Message
  | _, [] => []
  | room, l :: ls => answer room (command l) :: answers ((command l).room room) ls

/-- What the client prints of a response. -/
def complaint (room : Option Bytes) : Command → Bytes
  | .leave => if room = none then str "Leave unsuccessful, user isn't in the room\n\n" else []
  | .sendall _ => if room = none then str "Sendall unsuccessful, user isn't in a room\n" else []
  | _ => []

/-- What it prints for some lines. -/
def complaints : Option Bytes → List Bytes → Bytes
  | _, [] => []
  | room, l :: ls => complaint room (command l) ++ complaints ((command l).room room) ls

@[simp] theorem length_answers (room : Option Bytes) (ls : List Bytes) :
    (answers room ls).length = ls.length := by
  induction ls generalizing room with
  | nil => rfl
  | cons l ls ih => simp [answers, ih]

/-- What is printed of a response to a line. -/
def shown (l : Bytes) (resp : Message) : Bytes :=
  if resp.tag = tagErr then cString resp.received.data ++ (command l).errEnd else []

private theorem shown_answer (room : Option Bytes) (l : Bytes) :
    shown l (answer room (command l)) = complaint room (command l) := by
  unfold shown
  cases command l with
  | join roomName => rfl
  | quit => rfl
  | leave =>
    by_cases hroom : room = none
    · simp only [answer, complaint, if_pos hroom]
      decide
    · simp only [answer, complaint, if_neg hroom]
      rfl
  | sendall text =>
    by_cases hroom : room = none
    · simp only [answer, complaint, Command.errEnd, if_pos hroom]
      decide
    · simp only [answer, complaint, if_neg hroom]
      rfl

theorem shown_answers (room : Option Bytes) (ls : List Bytes) :
    ((ls.zip (answers room ls)).flatMap fun p => shown p.1 p.2) = complaints room ls := by
  induction ls generalizing room with
  | nil => rfl
  | cons l ls ih => rw [answers, List.zip_cons_cons, List.flatMap_cons, ih, shown_answer, complaints]

theorem answer_fits (room : Option Bytes) (cmd : Command) :
    (answer room cmd).Fits ∧ (answer room cmd).tag ≠ tagDelivery := by
  have hall : ∀ msg ∈ [joinOk, leaveError, leaveOk, quitOk, sendallError, sendallOk],
      msg.Fits ∧ msg.tag ≠ tagDelivery := by decide
  refine hall _ ?_
  cases cmd with
  | leave | sendall => by_cases hroom : room = none <;> simp [answer, hroom]
  | _ => simp [answer]

theorem answers_fit {room : Option Bytes} {ls : List Bytes} :
    ∀ msg ∈ answers room ls, msg.Fits ∧ msg.tag ≠ tagDelivery := by
  induction ls generalizing room with
  | nil => exact nofun
  | cons l ls ih => exact List.forall_mem_cons.mpr ⟨answer_fits room _, ih⟩

end Sender

namespace Phase

/-- The machine's replies to what a client sends. -/
theorem replies_commands {ls : List Bytes} (hquit : ∀ l ∈ ls, Sender.command l ≠ .quit)
    (room : Option Bytes) :
    (Phase.of room).replies (ls.map fun l => some (Sender.command l).message.received) =
      Sender.answers room ls := by
  induction ls generalizing room with
  | nil => rfl
  | cons l ls ih =>
    obtain ⟨hl, hls⟩ := List.forall_mem_cons.mp hquit
    have hopen : Phase.of room ≠ .ended := by cases room <;> exact Phase.noConfusion
    rw [List.map_cons, replies, if_neg hopen, answer_command hl, ih hls, Sender.answers]
    cases hcmd : Sender.command l with
    | join roomName => rfl
    | quit => exact absurd hcmd hl
    | leave => cases room <;> rfl
    | sendall text => cases room <;> rfl

end Phase

namespace Client

variable {c c' : Client} {buffer : Bytes} {msg resp m : Message}

/-- A call that gets its response has taken it from the line that is next. -/
private theorem call_takes {notSent notReceived : Bytes} {more : Bytes}
    (h : c.call buffer msg notSent notReceived = .ok (some resp, c'))
    (hst : c.conn.mFdbuf.stream = Connection.encode m ++ more) (hfits : m.Fits) (htag : m.tag ≠ tagDelivery) :
    resp = m.received ∧ ∃ conn, c' = { c with conn } ∧ conn.mFdbuf.stream = more := by
  rw [call] at h
  obtain ⟨⟨sent, conn₁⟩, hsend⟩ : ∃ p, c.conn.send msg = p := ⟨_, rfl⟩
  have hbuf := (Connection.send_frame hsend).2.1
  cases sent with
  | false => simp [hsend, pure, Except.pure] at h
  | true =>
    simp only [hsend, if_true] at h
    obtain ⟨conn₂, hrec, hst₂, -⟩ := hfits.receive htag (hbuf ▸ hst) buffer {}
    simp only [receive, hrec, bind, Except.bind, pure, Except.pure, if_true] at h
    obtain ⟨heq, rfl⟩ := Prod.mk.inj (Except.ok.inj h)
    exact ⟨(Option.some.inj heq).symm, conn₂, rfl, hst₂⟩

/-- The same for a client that has gone on since. -/
theorem call_takes_live {notSent notReceived : Bytes} {more : Bytes} {got : Option Message} {c₁ : Client}
    {go : Message → Except Fault Client} (hcall : c.call buffer msg notSent notReceived = .ok (got, c₁))
    (h : (match got with
      | none => (pure c₁ : Except Fault Client)
      | some resp => go resp) = .ok c') (hlive : c'.exit = none)
    (hst : c.conn.mFdbuf.stream = Connection.encode m ++ more) (hfits : m.Fits) (htag : m.tag ≠ tagDelivery) :
    go m.received = .ok c' ∧ ∃ conn, c₁ = { c with conn } ∧ conn.mFdbuf.stream = more := by
  cases got with
  | none =>
    obtain rfl : c₁ = c' := Except.ok.inj h
    rw [call_none hcall] at hlive
    cases hlive
  | some resp =>
    obtain ⟨rfl, htaken⟩ := call_takes hcall hst hfits htag
    exact ⟨h, htaken⟩

end Client

namespace Sender

variable {c c' : Client} {buffer : Bytes} {resp : Message} {more : Bytes}

/-- One iteration prints what it should of the response, and nothing else. -/
theorem body_shown (h : body buffer c = .ok c') (hlive : c'.exit = none)
    (hst : c.conn.mFdbuf.stream = Connection.encode resp ++ more) (hfits : resp.Fits)
    (htag : resp.tag ≠ tagDelivery) :
    c'.stdout = c.stdout ∧ c'.stderr = c.stderr ++ shown c.getline.1 resp ∧
      c'.stdin = c.stdin.tail ∧ c'.conn.mFdbuf.stream = more := by
  have hkeep : c.getline.2 = { c with stdin := c.stdin.tail } := congrArg Prod.snd c.getline_eq
  simp only [body] at h
  obtain ⟨⟨got, c₁⟩, hcall, h⟩ := ok_of_bind h
  have hst' : c.getline.2.conn.mFdbuf.stream = Connection.encode resp ++ more := by rw [hkeep, ← hst]
  obtain ⟨h, conn, rfl, hmore⟩ := Client.call_takes_live hcall h hlive hst' hfits htag
  have hc' := Except.ok.inj h
  have hquit : command c.getline.1 ≠ .quit := fun hquit => by
    rw [if_pos hquit] at hc'
    rw [← hc'] at hlive
    cases hlive
  rw [if_neg hquit] at hc'
  have hsame : resp.received.tag = resp.tag := rfl
  rw [← hc', hsame, shown, hkeep]
  split
  · exact ⟨rfl, rfl, rfl, hmore⟩
  · exact ⟨rfl, (List.append_nil _).symm, rfl, hmore⟩

theorem loop_shown {buffer : ℕ → Bytes} {n : ℕ} {resps : List Message}
    (h : c.loop body buffer n = .ok c') (hlive : c'.exit = none) (hn : n ≤ c.stdin.length)
    (hresps : n ≤ resps.length) (hst : c.conn.mFdbuf.stream = lines resps ++ more)
    (hfits : ∀ msg ∈ resps, msg.Fits ∧ msg.tag ≠ tagDelivery) :
    c'.stdout = c.stdout ∧ c'.stdin = c.stdin.drop n ∧
      c'.stderr = c.stderr ++ ((c.stdin.zip resps).take n).flatMap (fun p => shown p.1 p.2) ∧
      c'.conn.mFdbuf.stream = lines (resps.drop n) ++ more := by
  induction n generalizing c' with
  | zero =>
    obtain rfl : c = c' := Except.ok.inj h
    exact ⟨rfl, rfl, by simp, hst⟩
  | succ n ih =>
    obtain ⟨c₁, hloop, h⟩ := ok_of_bind h
    cases hexit : c₁.exit with
    | some status =>
      simp only [hexit] at h
      obtain rfl : c₁ = c' := Except.ok.inj h
      rw [hexit] at hlive
      cases hlive
    | none =>
      simp only [hexit, Option.isNone_none, if_true] at h
      obtain ⟨hout, hin, herr, hst₁⟩ := ih hloop hexit (by omega) (by omega)
      have hlt : n < resps.length := by omega
      have hlt' : n < c.stdin.length := by omega
      rw [List.drop_eq_getElem_cons hlt, lines_cons, List.append_assoc] at hst₁
      obtain ⟨hfit, htag⟩ := hfits _ (List.getElem_mem hlt)
      obtain ⟨hout', herr', hin', hst'⟩ := body_shown h hlive hst₁ hfit htag
      have hline : c₁.getline.1 = c.stdin[n] := by
        rw [c₁.getline_eq, hin, List.drop_eq_getElem_cons hlt']
        rfl
      refine ⟨hout'.trans hout, by rw [hin', hin, List.tail_drop], ?_, hst'⟩
      have hzip : n < (c.stdin.zip resps).length := by
        rw [List.length_zip]
        omega
      rw [herr', herr, hline, List.take_succ_eq_append_getElem hzip, List.flatMap_append, List.getElem_zip]
      simp

theorem main_shown {conn : Connection} {username : Bytes} {stdin : List Bytes} {buffer : ℕ → Bytes} {n : ℕ}
    {first : Message} {resps : List Message} (h : main conn username stdin buffer n = .ok c)
    (hlive : c.exit = none) (hn : n ≤ stdin.length) (hresps : n ≤ resps.length)
    (hst : conn.mFdbuf.stream = lines (first :: resps) ++ more)
    (hfits : ∀ msg ∈ first :: resps, msg.Fits ∧ msg.tag ≠ tagDelivery) :
    c.stdout = [] ∧ c.stderr = ((stdin.zip resps).take n).flatMap fun p => shown p.1 p.2 := by
  obtain ⟨⟨hfit, htag⟩, hrest⟩ := List.forall_mem_cons.mp hfits
  rw [lines_cons, List.append_assoc] at hst
  by_cases hopen : conn.isOpen = true
  · simp only [main, hopen, if_true] at h
    obtain ⟨⟨got, c₁⟩, hcall, h⟩ := ok_of_bind h
    obtain ⟨h, conn', rfl, hst'⟩ := Client.call_takes_live hcall h hlive hst hfit htag
    obtain ⟨hout, -, herr, -⟩ := loop_shown (Client.accepted h hlive) hlive hn hresps hst' hrest
    exact ⟨hout, herr⟩
  · simp only [main, hopen] at h
    obtain rfl := Except.ok.inj h
    simp [Client.fail] at hlive

end Sender

/-- A sender client of `user` that has read the lines `typed` and goes on, its session `i`, and the streams
between them; the session has sent as many responses as the client has taken, and has heard no more than the
client has sent. -/
structure Converses (es : List Event) (s : Server) (i : Sid) (user : Bytes) (typed : List Bytes)
    (c : Client) : Prop where
  main : ∃ conn buffer more n remote, conn.wire.Healthy ∧ conn.wire.written = [] ∧
    Sender.main conn user (typed ++ more) buffer typed.length = .ok c ∧
    Carries (s.thread i).conn.wire conn.mFdbuf ∧ ⟨i, n, .accept remote⟩ ∈ es ∧ remote.wire.Healthy ∧
    Carries c.conn.wire remote.mFdbuf
  live : c.exit = none
  fits : ∀ msg ∈ Sender.requests user typed, msg.Fits
  heard : (heard i es).length ≤ typed.length
  answered : typed.length < (sends i es).length

namespace Server

variable {es : List Event} {s : Server} {i : Sid} {user : Bytes} {typed : List Bytes} {c : Client}

/-- The responses of a session to the lines of a sender client. -/
private theorem responses_typed {input : Bytes} (hlines : lines (Sender.requests user typed) <+: input)
    (hfits : ∀ msg ∈ Sender.requests user typed, msg.Fits) (hquit : ∀ l ∈ typed, Sender.command l ≠ .quit) :
    responses input (typed.length + 1) = loginSuccess tagSlogin :: Sender.answers none typed := by
  have hdecode : ∀ {k : ℕ} {msg : Message}, (Sender.requests user typed)[k]? = some msg →
      decode (line newline lineMax input k) = some msg.received := fun {k msg} hk => by
    have hmem := List.mem_of_getElem? hk
    rw [(line_sent hlines hfits hk).2, (hfits msg hmem).decode (Sender.requests_tag msg hmem)]
  have hlogin := hdecode (show (Sender.requests user typed)[0]? = some ⟨tagSlogin, user⟩ from rfl)
  have hheard : (List.range typed.length).map (fun j => decode (line newline lineMax input (j + 1))) =
      typed.map fun l => some (Sender.command l).message.received := by
    refine List.ext_getElem (by simp) fun k hk hk' => ?_
    have hlt : k < typed.length := by simpa using hk'
    rw [List.getElem_map, List.getElem_map, List.getElem_range]
    exact hdecode (by simp [Sender.requests, hlt])
  have htag : isTag tagSlogin (some (Message.received ⟨tagSlogin, user⟩)) = true := by
    simp [isTag, Message.received]
  rw [responses, hlogin, hheard, greeting, if_pos htag, if_pos htag]
  exact congrArg _ (Phase.replies_commands hquit none)

/-- A session that has answered the lines of a sender client has sent the responses to them. -/
private theorem sends_typed (hrun : Run Server.Step {} es s) {n : ℕ} {remote : Connection}
    (haccept : ⟨i, n, .accept remote⟩ ∈ es) (hintact : remote.mFdbuf.broken = false)
    (hlines : lines (Sender.requests user typed) <+: remote.mFdbuf.stream)
    (hfits : ∀ msg ∈ Sender.requests user typed, msg.Fits) (hquit : ∀ l ∈ typed, Sender.command l ≠ .quit)
    (hheard : (heard i es).length ≤ typed.length) (hanswered : typed.length < (sends i es).length) :
    (sends i es).map Prod.fst = loginSuccess tagSlogin :: Sender.answers none typed := by
  have hserial := (reads hrun haccept hintact).serial
  have hcalls : (s.thread i).calls ≤ typed.length + 1 := by
    unfold Thread.calls
    split <;> omega
  have hfed : s.Fed i remote.mFdbuf.stream := fun k hk =>
    have hlt : k < (Sender.requests user typed).length := by simpa [Sender.requests] using hk.trans_le hcalls
    (line_sent hlines hfits (List.getElem?_eq_getElem hlt)).1
  have hfirst := (line_sent hlines hfits
    (show (Sender.requests user typed)[0]? = some ⟨tagSlogin, user⟩ from rfl)).2
  have hlogin : isTag tagRlogin (decode (line newline lineMax remote.mFdbuf.stream 0)) = false := by
    rw [hfirst, (hfits _ List.mem_cons_self).decode (by decide : tagSlogin ≠ tagDelivery)]
    exact (by decide : decide (tagSlogin = tagRlogin) = false)
  obtain ⟨hresponses, -⟩ := sends_responses hrun haccept hintact hfed hlogin
  have hall := hresponses.trans (responses_mono hcalls)
  rw [responses_typed hlines hfits hquit] at hall
  exact hall.eq_of_length_le (by simpa using Nat.succ_le_of_lt hanswered)

/-- Whatever the other clients do, a sender client prints a complaint for each line that it typed outside
all rooms and that needs one, and nothing else. -/
theorem told_typed (hrun : Run Server.Step {} es s) (h : Converses es s i user typed c) :
    c.stdout = [] ∧ c.stderr = Sender.complaints none typed := by
  obtain ⟨conn, buffer, more, n, remote, hwire, hempty, hmain, hback, haccept, hremote, hforth⟩ := h.main
  obtain ⟨hsent, hquit⟩ := Sender.main_ok hmain h.live (by simp)
  rw [List.take_left] at hsent hquit
  have hlines := hforth.written
  rw [hsent, written_sendAll hwire h.fits, hempty, List.nil_append] at hlines
  have hsends := sends_typed hrun haccept hforth.intact hlines h.fits hquit h.heard h.answered
  have hfits : ∀ msg ∈ loginSuccess tagSlogin :: Sender.answers none typed,
      msg.Fits ∧ msg.tag ≠ tagDelivery :=
    List.forall_mem_cons.mpr ⟨by decide, Sender.answers_fit⟩
  have hwritten : (s.thread i).conn.wire.written =
      lines (loginSuccess tagSlogin :: Sender.answers none typed) := by
    have hbytes := written_sendAll hremote fun msg hmsg => (hfits msg hmsg).1
    rwa [← hsends, wire_of_sends hrun haccept, accept_written hrun haccept, hsends] at hbytes
  obtain ⟨later, hlater⟩ := hback.written
  rw [hwritten] at hlater
  obtain ⟨hout, herr⟩ := Sender.main_shown hmain h.live (by simp) (by simp) hlater.symm hfits
  refine ⟨hout, ?_⟩
  have hzip : ((typed ++ more).zip (Sender.answers none typed)).take typed.length =
      typed.zip (Sender.answers none typed) := by
    rw [List.zip_eq_zipWith, List.take_zipWith, List.take_left, List.take_of_length_le (by simp),
      ← List.zip_eq_zipWith]
  rw [herr, hzip, Sender.shown_answers]

/-- Alice joins, says something, leaves, and does not notice. -/
private def absent : List Sched :=
  .client 0 "slogin:alice\njoin:lobby\nsendall:hi\nleave:bye\nsendall:yo\nleave:bye\n" :: Sched.steps 0 31

set_option maxRecDepth 8000 in
private def absentee : Connection := .ofFd 3 [.data ⟨str "ok:Sender logged in\nok:Join successful\n" ++
  str "ok:Sendall successful\nok:Leave successful\nerr:Sendall unsuccessful, user isn't in a room\n" ++
  str "err:Leave unsuccessful, user isn't in the room\n", by decide⟩] []

set_option maxRecDepth 8000 in
theorem told_typed_absent : ∃ es s c, Run Server.Step {} es s ∧
    Sender.main absentee (str "alice")
      [str "/join lobby", str "hi", str "/leave", str "yo", str "/leave"] (fun _ => []) 5 = .ok c ∧
    c.stderr = str "Sendall unsuccessful, user isn't in a room\n" ++
      str "Leave unsuccessful, user isn't in the room\n\n" := by
  obtain ⟨⟨es, s⟩, h⟩ := Option.isSome_iff_exists.mp (show (outcome absent).isSome = true by decide +kernel)
  have at0 : (outcome absent).bind (fun p => p.1[0]?) = some ⟨0, 0, .accept (.ofFd 4 [.data ⟨str
      "slogin:alice\njoin:lobby\nsendall:hi\nleave:bye\nsendall:yo\nleave:bye\n", by decide⟩] [])⟩ := rfl
  have hheard : (outcome absent).map (fun p => (heard 0 p.1).length) = some 5 := by decide +kernel
  have hsends : (outcome absent).map (fun p => (sends 0 p.1).length) = some 6 := by decide +kernel
  have hwire : (outcome absent).map (fun p => (p.2.thread 0).conn.wire.written) =
      some (incoming absentee.mFdbuf.reads) := by decide +kernel
  rw [h] at at0 hheard hsends hwire
  have hbytes : (s.thread 0).conn.wire.written = _ := Option.some.inj hwire
  have hfive : (heard 0 es).length = 5 := Option.some.inj hheard
  have hsix : (sends 0 es).length = 6 := Option.some.inj hsends
  have hconverses : Converses es s 0 (str "alice")
      [str "/join lobby", str "hi", str "/leave", str "yo", str "/leave"] _ :=
    ⟨⟨absentee, fun _ => [], [], 0, _, by simp [absentee, Wire.Healthy, Connection.ofFd], rfl, rfl,
      ⟨by rw [hbytes]; exact List.prefix_rfl, rfl⟩, List.mem_of_getElem? at0,
      by simp [Wire.Healthy, Connection.ofFd], List.prefix_iff_eq_take.mpr (by decide +kernel), rfl⟩, rfl,
      by decide, hfive.le, by rw [hsix]; decide⟩
  exact ⟨es, s, _, run_of_outcome h, rfl, (told_typed (run_of_outcome h) hconverses).2⟩

end Server
end Chat
