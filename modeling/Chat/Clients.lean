import Chat.Greeting
import Chat.Receiver
import Chat.Sender

/-! The sessions that serve the two client programs: what the bytes that a client writes make of
its session. -/
namespace Chat
open Transition Lines

/-- A reliable byte stream: what is written at one end is what comes first at the other, and no
read fails. -/
structure Carries (wire : Wire) (rp : Rio) : Prop where
  written : wire.written <+: rp.stream
  intact : rp.broken = false

/-- Session `i` serves a sender client of `user` that has read the lines `typed`, goes on, and
then reads and sends the line `t`. -/
def Types (es : List Event) (i : Sid) (user : Bytes) (typed : List Bytes) (t : Bytes) : Prop :=
  ∃ conn buffer more c n remote, conn.wire.Healthy ∧ conn.wire.written = [] ∧
    Sender.main conn user (typed ++ t :: more) buffer typed.length = .ok c ∧ c.exit = none ∧
    ⟨i, n, .accept remote⟩ ∈ es ∧
    Carries (c.conn.send (Sender.command t).message).2.wire remote.mFdbuf

/-- Session `u` serves a receiver client of `name` that has joined `room` and goes on. -/
structure Attends (es : List Event) (s : Server) (u : Sid) (name room : Bytes) (conn : Connection)
    (buffer : ℕ → Bytes) : Prop where
  main : ∃ c n remote, Receiver.main conn name room buffer 0 = .ok c ∧ c.exit = none ∧
    ⟨u, n, .accept remote⟩ ∈ es ∧ remote.wire.Healthy ∧ Carries c.conn.wire remote.mFdbuf
  healthy : conn.wire.Healthy
  written : conn.wire.written = []
  back : Carries (s.thread u).conn.wire conn.mFdbuf

namespace Phase

/-- Where a sender session is when its client has been led to `room`. -/
def of : Option Bytes → Phase
  | none => .outside
  | some room => .inside ((room ++ [newline]).takeWhile (· ≠ colon))

variable {rooms : Bytes → Option RoomId} {username : Bytes}

/-- The session takes each command as the client means it. -/
theorem answer_command {cmd : Command} (hquit : cmd ≠ .quit) (room : Option Bytes) :
    ((Phase.of room).answer rooms username (some cmd.message.received)).1 =
      Phase.of (cmd.room room) := by
  cases cmd with
  | join roomName => rfl
  | quit => exact absurd rfl hquit
  | leave => cases room <;> rfl
  | sendall text => cases room <;> rfl

theorem answer_commands {typed : List Bytes} (h : ∀ l ∈ typed, Sender.command l ≠ .quit)
    (room : Option Bytes) :
    (typed.map fun l => some (Sender.command l).message.received).foldl
        (fun p m => (p.answer rooms username m).1) (Phase.of room) =
      Phase.of (typed.foldl (fun room l => (Sender.command l).room room) room) := by
  induction typed generalizing room with
  | nil => rfl
  | cons l typed ih =>
    have hfirst := @answer_command rooms username (Sender.command l) (h l List.mem_cons_self) room
    have hrest := ih (fun l' hl' => h l' (List.mem_cons_of_mem _ hl')) ((Sender.command l).room room)
    rw [List.map_cons, List.foldl_cons, List.foldl_cons, hfirst, hrest]

end Phase

namespace Sender

theorem requests_tag {user : Bytes} {typed : List Bytes} :
    ∀ msg ∈ requests user typed, msg.tag ≠ tagDelivery := by
  intro msg hmsg
  rcases List.mem_cons.mp hmsg with rfl | hmsg
  · exact (by decide : tagSlogin ≠ tagDelivery)
  · obtain ⟨l, -, rfl⟩ := List.mem_map.mp hmsg
    exact (command l).tag_ne_delivery

/-- What the client has written when it has sent the line `t`. -/
theorem written_requests {conn : Connection} {user t : Bytes} {typed more : List Bytes}
    {buffer : ℕ → Bytes} {c : Client} (hwire : conn.wire.Healthy)
    (h : main conn user (typed ++ t :: more) buffer typed.length = .ok c) (hlive : c.exit = none)
    (hfits : ∀ msg ∈ requests user (typed ++ [t]), msg.Fits) :
    (c.conn.send (command t).message).2.wire.written =
        conn.wire.written ++ lines (requests user (typed ++ [t])) ∧
      ∀ l ∈ typed, command l ≠ .quit := by
  obtain ⟨hsent, hquit⟩ := main_ok h hlive (by simp)
  rw [List.take_left] at hsent hquit
  refine ⟨?_, hquit⟩
  obtain ⟨r, hsend⟩ := c.conn.send_wire (command t).message
  have hall : requests user (typed ++ [t]) = requests user typed ++ [(command t).message] := by
    simp [requests]
  have hlast : (c.conn.send (command t).message).2.wire =
      (conn.wire.sendAll (requests user (typed ++ [t]))).2 := by
    rw [hsend, hall, Wire.sendAll_append, hsent]
    rfl
  rw [hlast, written_sendAll hwire hfits]

end Sender

namespace Server

variable {es : List Event} {s : Server} {i u : Sid}

/-- The line under each number is what the client sent under it. -/
theorem line_sent {stream : Bytes} {msgs : List Message} (h : lines msgs <+: stream)
    (hfits : ∀ msg ∈ msgs, msg.Fits) {k : ℕ} {msg : Message} (hk : msgs[k]? = some msg) :
    rest newline lineMax stream k ≠ [] ∧
      line newline lineMax stream k = Connection.encode msg := by
  obtain ⟨more, rfl⟩ := h
  obtain ⟨hlt, hmsg⟩ := List.getElem?_eq_some_iff.mp hk
  refine ⟨?_, line_lines hfits more hk⟩
  rw [rest_lines hfits more hlt.le, List.drop_eq_getElem_cons hlt, lines_cons, Message.encode_eq]
  simp

/-- The session of a client whose first line is a login takes its role and its name from it. -/
theorem entered_as (hrun : Run Server.Step {} es s) {stream : Bytes} {msgs : List Message}
    (hreads : s.Reads i stream es) (hlines : lines msgs <+: stream)
    (hfits : ∀ msg ∈ msgs, msg.Fits) {login : Message} (hlogin : msgs[0]? = some login)
    (htag : login.tag ≠ tagDelivery) (hentered : (s.thread i).Entered i es) :
    (s.thread i).role = (if login.tag = tagSlogin then .sender else .receiver) ∧
      (s.shared.user i).username = login.received.data := by
  obtain ⟨m, hm, hnew, hrole⟩ := hentered
  obtain ⟨hne, hline⟩ := line_sent hlines hfits hlogin
  have hdecode := hreads.login 0 (some m) hm hne
  rw [hline, (hfits login (List.mem_of_getElem? hlogin)).decode htag] at hdecode
  obtain rfl : login.received = m := Option.some.inj hdecode
  exact ⟨hrole, (newUser_username hrun hnew).2⟩

private theorem heard_sent {stream : Bytes} {msgs : List Message} (hreads : s.Reads i stream es)
    (hlines : lines msgs <+: stream) (hfits : ∀ msg ∈ msgs, msg.Fits)
    (htags : ∀ msg ∈ msgs, msg.tag ≠ tagDelivery) {k : ℕ} (hk : k + 1 < msgs.length)
    (hheard : k < (heard i es).length) :
    (heard i es)[k]? = some (some msgs[k + 1].received) := by
  have hmsg : msgs[k + 1]? = some msgs[k + 1] := List.getElem?_eq_getElem hk
  obtain ⟨hne, hline⟩ := line_sent hlines hfits hmsg
  have hget : (heard i es)[k]? = some (heard i es)[k] := List.getElem?_eq_getElem hheard
  have hdecode := hreads.heard k _ hget hne
  rw [hline, (hfits _ (List.getElem_mem hk)).decode (htags _ (List.getElem_mem hk))] at hdecode
  rw [hget, ← hdecode]

theorem heard_typed {stream user : Bytes} {typed : List Bytes} {pre post : List Event}
    (hreads : s.Reads i stream (pre ++ post))
    (hlines : lines (Sender.requests user typed) <+: stream)
    (hfits : ∀ msg ∈ Sender.requests user typed, msg.Fits)
    (hlen : (heard i pre).length = typed.length) :
    heard i pre = typed.map fun l => some (Sender.command l).message.received := by
  refine List.ext_getElem (by rw [hlen, List.length_map]) fun k hk hk' => ?_
  have hcount : (heard i (pre ++ post)).length = (heard i pre).length + (heard i post).length := by
    rw [heard_append, List.length_append]
  have hlt : k + 1 < (Sender.requests user typed).length := by simpa [Sender.requests] using hk'
  have hsent := heard_sent hreads hlines hfits Sender.requests_tag hlt (by omega)
  rw [heard_append, List.getElem?_append_left hk, List.getElem?_eq_getElem hk] at hsent
  simpa [Sender.requests] using Option.some.inj hsent

/-- What a session broadcasts for the line `t` of its client, and where. -/
theorem sender_broadcast (hrun : Run Server.Step {} es s) {user t sender text : Bytes}
    {typed : List Bytes} {q : RoomId} (htypes : Types es i user typed t)
    (hfits : ∀ msg ∈ Sender.requests user (typed ++ [t]), msg.Fits) (huser : colon ∉ user)
    (ht : colon ∉ t) (hcmd : Sender.command t = .sendall t)
    (hcast : ⟨i, typed.length + 1, .broadcast q sender text⟩ ∈ es) :
    (s.shared.user i).username = user ++ [newline] ∧ sender = user ++ [newline] ∧
      text = t ++ [newline] ∧ ∀ room, Sender.roomAfter typed = some room →
        s.shared.mRooms ((room ++ [newline]).takeWhile (· ≠ colon)) = some q := by
  obtain ⟨conn, buffer, more, c, n, remote, hwire, hempty, hmain, hlive, haccept, hcarries⟩ := htypes
  obtain ⟨hwritten, hquit⟩ := Sender.written_requests hwire hmain hlive hfits
  have hlines := hcarries.written
  rw [hwritten, hempty, List.nil_append] at hlines
  have hreads := reads hrun haccept hcarries.intact
  obtain ⟨pre, post, rfl⟩ := List.append_of_mem hcast
  obtain ⟨s₁, s₂, h₁, hs, hpost⟩ := hrun.splitAt
  obtain ⟨hacts, hserial⟩ : s₁.Acts i (.broadcast q sender text) s₂ ∧
      typed.length + 1 = (s₂.thread i).serial := hs.acts
  obtain ⟨hpc, hroom, hsender, htext, ht'⟩ := hacts.step.broadcast_of
  have hserial₁ : (s₁.thread i).serial = typed.length + 1 := by rw [hserial, ht']
  have hlate : (s₁.thread i).pc.early = false := by rw [hpc]; rfl
  have hentered := (greeted h₁ i).entered hlate (.inl (by simp [hpc]))
  have hentered' : (s.thread i).Entered i (pre ++ ⟨i, typed.length + 1, .broadcast q sender text⟩ :: post) :=
    hentered.mono (role_run (.cons hs hpost) hlate) _
  obtain ⟨hrole, hname⟩ := entered_as hrun hreads hlines hfits
    (show (Sender.requests user (typed ++ [t]))[0]? = some ⟨tagSlogin, user⟩ from rfl)
    (by decide : tagSlogin ≠ tagDelivery) hentered'
  have hlogin := @Message.received_eq ⟨tagSlogin, user⟩ (by decide : tagSlogin ≠ tagQuit)
    (by decide : tagSlogin ≠ tagLeave) huser
  have hsent := @Message.received_eq ⟨tagSendall, t⟩ (by decide : tagSendall ≠ tagQuit)
    (by decide : tagSendall ≠ tagLeave) ht
  rw [hlogin] at hname
  have hrole₁ : (s₁.thread i).role = .sender := (role_run (.cons hs hpost) hlate).symm.trans hrole
  refine ⟨hname, ?_, ?_, fun room hafter => ?_⟩
  · rw [hsender, ← username_run (.cons hs hpost) hlate, hname]
  · have hhandled := handled h₁ i (by rw [hpc]; rfl)
    rw [hserial₁] at hhandled
    have hmsg : (Sender.requests user (typed ++ [t]))[typed.length + 1]? = some ⟨tagSendall, t⟩ := by
      simp [Sender.requests, hcmd, Command.message]
    obtain ⟨hne, hline⟩ := line_sent hlines hfits hmsg
    have hdecode := hreads.receive _ _ (List.mem_append_left _ hhandled) hne
    rw [hline, (hfits _ (List.mem_of_getElem? hmsg)).decode (by decide : tagSendall ≠ tagDelivery),
      hsent] at hdecode
    rw [htext, ← Option.some.inj hdecode]
  · obtain ⟨m, -, hnew, -⟩ := hentered
    obtain ⟨p, exs, vs, hexec, -, hexpects⟩ := (simulates h₁ i).2 _ _ hnew hrole₁
      s.shared.mRooms fun _ _ hr => mRooms_run (.cons hs hpost) hr
    obtain ⟨hp, hcount⟩ := Phase.execute_phase hexec
    have hlen : (heard i pre).length = (typed ++ [t]).length := by
      rw [List.length_append, List.length_singleton, ← hserial₁, hcount, Nat.zero_add]
    have hall : ∀ l ∈ typed ++ [t], Sender.command l ≠ .quit := fun l hl => by
      rcases List.mem_append.mp hl with hl | hl
      · exact hquit l hl
      · rw [List.mem_singleton.mp hl, hcmd]
        exact Command.noConfusion
    have hphase := @Phase.answer_commands s.shared.mRooms (s₁.shared.user i).username _ hall none
    rw [heard_typed hreads hlines hfits hlen] at hp
    have hsame : (typed ++ [t]).foldl (fun room l => (Sender.command l).room room) none =
        Sender.roomAfter typed := by
      simp [Sender.roomAfter, List.foldl_append, hcmd, Command.room]
    have hinside : p = .inside ((room ++ [newline]).takeWhile (· ≠ colon)) := by
      rw [hp]
      exact hphase.trans (by rw [hsame, hafter]; rfl)
    have hattached : (s₁.thread i).Attached s₁.shared s.shared.mRooms i p := by
      simp only [Thread.Expects, hpc] at hexpects
      exact hexpects.1
    rw [hinside] at hattached
    obtain ⟨r, hregistered, hr, -⟩ := hattached
    obtain rfl : q = r := Option.some.inj (hroom.symm.trans hr)
    exact hregistered

/-- The session of a receiver client is a receiver, of the client's name and in its room. -/
theorem receiver_joined {pre post : List Event} {name room : Bytes} {conn : Connection}
    {buffer : ℕ → Bytes} {r : RoomId}
    (hrun : Run Server.Step {} (pre ++ ⟨u, 1, .insert r⟩ :: post) s)
    (hattends : Attends (pre ++ ⟨u, 1, .insert r⟩ :: post) s u name room conn buffer)
    (hfits : ∀ msg ∈ Receiver.requests name room, msg.Fits) :
    (s.thread u).role = .receiver ∧
      (s.shared.user u).username = (name ++ [newline]).takeWhile (· ≠ colon) ∧
      s.shared.mRooms ((room ++ [newline]).takeWhile (· ≠ colon)) = some r := by
  obtain ⟨c, n, remote, hmain, hlive, haccept, -, hcarries⟩ := hattends.main
  obtain ⟨hwire, -⟩ := Receiver.main_zero hmain hlive
  have hlines := hcarries.written
  rw [hwire, written_sendAll hattends.healthy hfits, hattends.written, List.nil_append] at hlines
  have hreads := reads hrun haccept hcarries.intact
  obtain ⟨s₁, s₂, h₁, hs, hpost⟩ := hrun.splitAt
  obtain ⟨hacts, -⟩ : s₁.Acts u (.insert r) s₂ ∧ 1 = (s₂.thread u).serial := hs.acts
  obtain ⟨hpc, -, -⟩ := hacts.step.insert_of
  have hlate : (s₁.thread u).pc.early = false := by rw [hpc]; rfl
  have hentered : (s.thread u).Entered u (pre ++ ⟨u, 1, .insert r⟩ :: post) :=
    ((greeted h₁ u).entered hlate (.inl (by simp [hpc]))).mono (role_run (.cons hs hpost) hlate) _
  obtain ⟨hrole, hname⟩ := entered_as hrun hreads hlines hfits
    (show (Receiver.requests name room)[0]? = some ⟨tagRlogin, name⟩ from rfl)
    (by decide : tagRlogin ≠ tagDelivery) hentered
  have hreceiver : (s.thread u).role = .receiver := hrole
  refine ⟨hreceiver, hname, ?_⟩
  obtain ⟨n', s', -, hpost', hjoined, -, -, hreceived⟩ := join_split hrun hreceiver
  have hmsg : (Receiver.requests name room)[1]? = some ⟨tagJoin, room⟩ := rfl
  obtain ⟨hne, hline⟩ := line_sent hlines hfits hmsg
  have hdecode := hreads.receive _ _ (List.mem_append_left _ hreceived) hne
  rw [hline, (hfits _ (List.mem_of_getElem? hmsg)).decode (by decide : tagJoin ≠ tagDelivery)]
    at hdecode
  have hjoin : Message.received ⟨tagJoin, room⟩ = ⟨tagJoin, n'⟩ := Option.some.inj hdecode
  have hname' : (room ++ [newline]).takeWhile (· ≠ colon) = n' := congrArg Message.data hjoin
  rw [hname']
  exact mRooms_run hpost' hjoined.registered

end Server
end Chat
