import Chat.Clients
import Chat.Frames
import Chat.Overlong
import Chat.RealTime

/-! From the line that is typed at one client to the line that is printed at another. -/
namespace Chat
open Transition Lines

/-- Names and a line that the protocol can carry, and their delivery within its limit. -/
structure WithinLimit (user room t : Bytes) : Prop where
  plainUser : Plain user
  plainRoom : Plain room
  plainText : Plain t
  length : (str "delivery:" ++ room ++ [colon] ++ user ++ [colon] ++ t ++ [newline]).length ≤ 254

namespace WithinLimit

variable {user room t : Bytes}

private theorem length_le (h : WithinLimit user room t) :
    room.length + user.length + t.length ≤ 242 := by
  have hlength := h.length
  have hdelivery : (str "delivery:").length = 9 := by decide
  simp only [List.length_append, List.length_singleton, hdelivery] at hlength
  omega

private theorem encode_length {tag data : Bytes} (hquit : tag ≠ tagQuit) (hleave : tag ≠ tagLeave) :
    (Connection.encode ⟨tag, data⟩).length = tag.length + data.length + 2 := by
  have hpayload : Message.payload ⟨tag, data⟩ = data := by
    simp [Message.payload, hquit, hleave]
  rw [Message.encode_length, hpayload]

/-- The other lines are shorter than the delivery. -/
private theorem fits {tag data : Bytes} (htag : Plain tag) (hlen : tag.length ≤ 8)
    (hquit : tag ≠ tagQuit) (hleave : tag ≠ tagLeave) (hdata : Plain data)
    (h : data.length ≤ 242) : Message.Fits ⟨tag, data⟩ where
  tag := htag
  noNewline := hdata.noNewline
  noNul := hdata.noNul
  data := by
    have hmax : maxLen = 255 := rfl
    show data.length ≤ maxLen
    omega
  length := by
    have hmax : lineMax = 254 := rfl
    rw [encode_length hquit hleave]
    omega

theorem requests_fit (h : WithinLimit user room t) {typed : List Bytes}
    (hcmd : Sender.command t = .sendall t) (htyped : ∀ l ∈ typed, (Sender.command l).message.Fits) :
    ∀ msg ∈ Sender.requests user (typed ++ [t]), msg.Fits := by
  have hle := h.length_le
  intro msg hmsg
  rcases List.mem_cons.mp hmsg with rfl | hmsg
  · exact fits (by decide) (by decide) (by decide) (by decide) h.plainUser (by omega)
  · obtain ⟨l, hl, rfl⟩ := List.mem_map.mp hmsg
    rcases List.mem_append.mp hl with hl | hl
    · exact htyped l hl
    · rw [List.mem_singleton.mp hl, hcmd]
      exact fits (by decide) (by decide) (by decide) (by decide) h.plainText (by omega)

theorem join_fits (h : WithinLimit user room t) : Message.Fits ⟨tagJoin, room⟩ := by
  have hle := h.length_le
  exact fits (by decide) (by decide) (by decide) (by decide) h.plainRoom (by omega)

theorem delivery_fits (h : WithinLimit user room t) :
    (delivery (room ++ [newline]) (user ++ [newline]) (t ++ [newline])).Fits := by
  have hfree : ∀ {b : Bytes}, Plain b → 0 ∉ b ++ [newline] := fun {b} hb => by
    have hnewline : (0 : UInt8) ≠ newline := by decide
    simp [hb.noNul, hnewline]
  refine fits_delivery (hfree h.plainRoom) (hfree h.plainUser) (hfree h.plainText) ?_
  have hle := h.length_le
  have hmax : lineMax = 254 := rfl
  have htag : tagDelivery.length = 8 := rfl
  rw [encode_delivery]
  simp only [delivery, removeNewline_append_newline h.plainRoom.noNewline,
    removeNewline_append_newline h.plainUser.noNewline, removeNewline_append_newline h.plainText.noNewline,
    List.length_append, List.length_singleton, htag]
  omega

end WithinLimit

/-- Names without a newline are told apart by what their logins leave of them. -/
private theorem login_ne {name user : Bytes} (hname : newline ∉ name) (hne : name ≠ user) :
    (name ++ [newline]).takeWhile (· ≠ colon) ≠ user ++ [newline] := by
  intro heq
  by_cases hcolon : colon ∈ name
  · obtain ⟨pre, post, rfl, hpre⟩ := List.eq_append_cons_of_mem hcolon
    have hall : ∀ b ∈ pre, decide (b ≠ colon) = true := fun b hb =>
      decide_eq_true fun hbc => hpre (hbc ▸ hb)
    rw [List.append_assoc, List.takeWhile_append_of_pos hall] at heq
    have hend : newline ∈ pre := by
      have hmem : newline ∈ user ++ [newline] := by simp
      rw [← heq] at hmem
      simpa using hmem
    exact hname (List.mem_append_left _ hend)
  · rw [firstField_of_notMem hcolon] at heq
    exact hne (List.append_cancel_right heq)

namespace Server

variable {es : List Event} {s : Server} {i u : Sid}

theorem accept_written (hrun : Run Server.Step {} es s) {n : ℕ} {conn : Connection}
    (haccept : ⟨u, n, .accept conn⟩ ∈ es) : conn.wire.written = [] := by
  obtain ⟨pre, post, rfl⟩ := List.append_of_mem haccept
  obtain ⟨s₁, s₂, -, hs, -⟩ := hrun.splitAt
  obtain ⟨hacts, -⟩ : s₁.Acts u (.accept conn) s₂ ∧ n = (s₂.thread u).serial := hs.acts
  have hstep := hacts.step
  generalize s₂.thread u = t at hstep
  cases hstep with
  | inner h => cases h
  | accept => rfl

/-- What a receiver's session has to send before its `k`-th delivery. -/
def before (u : Sid) (es : List Event) (k : ℕ) : List Message :=
  loginSuccess tagRlogin :: joinOk :: ((posts u es).take k).map (·.msg)

/-- What is enqueued for a user is one line, after which the user's client goes on if it gets it whole. -/
private theorem post_line (hrun : Run Server.Step {} es s) {p : Post} (hp : p ∈ posts u es) :
    p.msg.OneLine ∧ Harmless (Connection.encode p.msg) ∧
      (strlen p.msg.data ≤ maxLen → Cut newline lineMax (Connection.encode p.msg) p.msg.pieces) := by
  obtain ⟨r, text, roomName, hcast, hname, hmsg⟩ := post_origin hrun hp
  have hclean := clean hrun
  have hline := oneLine_delivery (hclean.registry _ _ hname) (hclean.username p.session)
    (broadcast_clean hrun hcast)
  rw [hmsg]
  refine ⟨hline, ?_, cut_delivery hline⟩
  obtain ⟨m, hdecode, htag⟩ := decode_delivery_tag hline.nul_encode
  exact ⟨m, hdecode, by rw [htag]; decide⟩

private theorem before_oneLine (hrun : Run Server.Step {} es s) (k : ℕ) :
    ∀ msg ∈ before u es k, msg.OneLine := by
  intro msg hmsg
  rcases List.mem_cons.mp hmsg with rfl | hmsg
  · exact Message.Fits.oneLine (by decide)
  rcases List.mem_cons.mp hmsg with rfl | hmsg
  · exact Message.Fits.oneLine (by decide)
  · obtain ⟨p, hp, rfl⟩ := List.mem_map.mp hmsg
    exact (post_line hrun (List.mem_of_mem_take hp)).1

/-- A message that is delivered is on the wire whole, after those that were enqueued before. -/
private theorem delivered_written (hrun : Run Server.Step {} es s) {n k : ℕ} {remote : Connection}
    {p : Post} (haccept : ⟨u, n, .accept remote⟩ ∈ es) (hwire : remote.wire.Healthy)
    (hrole : (s.thread u).role = .receiver) (hp : (posts u es)[k]? = some p)
    (hk : k < (deliveries u es).length) (hfits : p.msg.Fits) :
    ∃ more, (s.thread u).conn.wire.written =
      lines (sendable (before u es k)) ++ Connection.encode p.msg ++ more := by
  obtain ⟨b, b', hsends⟩ := sends_of_deliveries hrun hrole (List.ne_nil_of_length_pos (by omega))
  have hall := (Prod.mk.inj (wire_of_sends hrun haccept)).2
  obtain ⟨later, hlater⟩ := deliveries_of_posts hrun u
  have hlen : k < ((deliveries u es).map Prod.fst).length := by simpa using hk
  have hmsg : ((deliveries u es).map Prod.fst)[k] = p.msg := by
    have hget : ((posts u es).map (·.msg))[k]? = some p.msg := by simp [hp]
    rw [← hlater, List.getElem?_append_left hlen, List.getElem?_eq_getElem hlen] at hget
    exact Option.some.inj hget
  have htake : ((deliveries u es).map Prod.fst).take k = ((posts u es).take k).map (·.msg) := by
    rw [List.map_take, ← hlater, List.take_append_of_le_length hlen.le]
  have hsplit : (sends u es).map Prod.fst = before u es k ++ p.msg ::
      ((deliveries u es).map Prod.fst).drop (k + 1) := by
    have hcut : (deliveries u es).map Prod.fst = ((posts u es).take k).map (·.msg) ++
        p.msg :: ((deliveries u es).map Prod.fst).drop (k + 1) := by
      rw [← htake, ← hmsg, ← List.drop_eq_getElem_cons hlen, List.take_append_drop]
    rw [hsends]
    exact congrArg (loginSuccess tagRlogin :: joinOk :: ·) hcut
  rw [hsplit, Wire.sendAll_append] at hall
  obtain ⟨hhealthy, -⟩ := Wire.sendAll_grows hwire (before u es k)
  obtain ⟨-, hhealthy', hwritten⟩ := hfits.send hhealthy
  obtain ⟨-, more, hmore⟩ := Wire.sendAll_grows hhealthy'
    (((deliveries u es).map Prod.fst).drop (k + 1))
  have hstart : remote.wire.written = [] := accept_written hrun haccept
  have hfirst : (remote.wire.sendAll (before u es k)).2.written =
      remote.wire.written ++ lines (sendable (before u es k)) :=
    written_sendable hwire (before_oneLine hrun k)
  rw [hstart, List.nil_append] at hfirst
  refine ⟨more, ?_⟩
  rw [← hfirst, ← hwritten, hmore, ← hall]
  rfl

variable {user room t name : Bytes} {typed : List Bytes} {conn : Connection} {buffer : ℕ → Bytes}

/-- What is enqueued for the line `t`, whoever it is enqueued for. -/
private theorem post_of_line (hrun : Run Server.Step {} es s) (hlimit : WithinLimit user room t)
    (hcmd : Sender.command t = .sendall t) (htyped : ∀ l ∈ typed, (Sender.command l).message.Fits)
    (hafter : Sender.roomAfter typed = some room) (htypes : Types es i user typed t) {p : Post}
    (hp : p ∈ posts u es) (hi : p.session = i) (hn : p.serial = typed.length + 1) :
    p.msg = delivery (room ++ [newline]) (user ++ [newline]) (t ++ [newline]) := by
  obtain ⟨r, text, roomName, hcast, hname, hmsg⟩ := post_origin hrun hp
  rw [hi, hn] at hcast
  obtain ⟨husername, -, htext, hroom⟩ := sender_broadcast hrun htypes
    (hlimit.requests_fit hcmd htyped) hlimit.plainUser.noColon hlimit.plainText.noColon hcmd hcast
  have hregistered := hroom room hafter
  rw [firstField_of_notMem hlimit.plainRoom.noColon] at hregistered
  have hsame := (registered hrun).registry.injective _ _ r hname hregistered
  rw [hmsg, hsame, htext, hi, husername]

/-- The line of a delivery makes the client print the sender and the text. -/
private theorem body_prints (hlimit : WithinLimit user room t) {msg : Message}
    (hmsg : msg = delivery (room ++ [newline]) (user ++ [newline]) (t ++ [newline])) {c : Client}
    (hb : c.conn.mFdbuf.broken = false)
    (hst : Connection.encode msg <+: c.conn.mFdbuf.stream) (buffer : Bytes) :
    ∃ c', Receiver.body buffer c = .ok c' ∧ c'.exit = c.exit ∧
      c'.stdout = c.stdout ++ (user ++ str ": " ++ t ++ [newline]) := by
  obtain ⟨more, hmore⟩ := hst
  have hdecode := decode_delivery hlimit.plainRoom hlimit.plainUser hlimit.plainText
  rw [← hmsg] at hdecode
  obtain ⟨conn', hbody, -⟩ := Receiver.body_delivery hb hmore.symm (hmsg ▸ hlimit.delivery_fits)
    hdecode rfl buffer
  rw [Receiver.print_delivery _ hlimit.plainRoom hlimit.plainUser hlimit.plainText] at hbody
  exact ⟨_, hbody, rfl, rfl⟩

/-- The client comes to a delivery just if it goes on after those that were enqueued before. -/
private theorem main_reaches (hrun : Run Server.Step {} es s)
    (hattends : Attends es s u name room conn buffer) {k : ℕ} {msg : Message} {more : Bytes}
    (hstream : conn.mFdbuf.stream =
      lines (sendable (before u es k)) ++ Connection.encode msg ++ more) :
    (∃ n c, Receiver.main conn name room buffer n = .ok c ∧ c.exit = none ∧
        c.conn.mFdbuf.stream = Connection.encode msg ++ more) ↔
      ∀ p ∈ (posts u es).take k, p.msg.Passable := by
  obtain ⟨c₀, -, -, hmain, hlive, -⟩ := hattends.main
  have hgreeting : sendable (before u es k) = loginSuccess tagRlogin :: joinOk ::
      sendable (((posts u es).take k).map (·.msg)) := rfl
  have hrest : rest newline lineMax conn.mFdbuf.stream 2 =
      lines (sendable (((posts u es).take k).map (·.msg))) ++ (Connection.encode msg ++ more) := by
    have hfits : ∀ m ∈ [loginSuccess tagRlogin, joinOk], m.Fits := by decide
    have htwo := rest_lines hfits (lines (sendable (((posts u es).take k).map (·.msg))) ++
      (Connection.encode msg ++ more)) (le_refl 2)
    rw [hstream, hgreeting]
    simpa [lines] using htwo
  have hmem : ∀ m, m ∈ sendable (((posts u es).take k).map (·.msg)) ↔
      (∃ p ∈ (posts u es).take k, p.msg = m) ∧ strlen m.data ≤ maxLen := fun m => by
    rw [sendable, List.mem_filter, List.mem_map, decide_eq_true_iff]
  rw [Receiver.main_reaches_iff hmain hlive hattends.back.intact hrest (by simp [Message.encode_eq])
    fun m hm => by
      obtain ⟨⟨p, hp, rfl⟩, hdata⟩ := (hmem m).mp hm
      exact (post_line hrun (List.mem_of_mem_take hp)).2.2 hdata]
  constructor
  · intro hpass p hp
    by_cases hdata : strlen p.msg.data ≤ maxLen
    · rw [Message.passable_iff (post_line hrun (List.mem_of_mem_take hp)).2.1 hdata]
      exact hpass p.msg ((hmem _).mpr ⟨⟨p, hp, rfl⟩, hdata⟩)
    · exact fun hlong => absurd hlong.1 hdata
  · intro hpass m hm
    obtain ⟨⟨p, hp, rfl⟩, hdata⟩ := (hmem m).mp hm
    exact (Message.passable_iff (post_line hrun (List.mem_of_mem_take hp)).2.1 hdata).mp (hpass p hp)

/-- The line `t` that a sender client's user types in a room is enqueued once for a receiver client that
has joined the room under another name. Delivered, it makes that client print the sender and the line,
just if the client goes on after each of the deliveries before it that is too long for `receive`. -/
theorem line_printed_iff {pre post : List Event} {r : RoomId}
    (hrun : Run Server.Step {} (pre ++ ⟨u, 1, .insert r⟩ :: post) s)
    (hlimit : WithinLimit user room t) (hjoin : ¬ str "/join " <:+: t)
    (hleave : ¬ str "/leave" <:+: t) (hquit : ¬ str "/quit" <:+: t)
    (htyped : ∀ l ∈ typed, (Sender.command l).message.Fits)
    (hafter : Sender.roomAfter typed = some room)
    (htypes : Types (pre ++ ⟨u, 1, .insert r⟩ :: post) i user typed t)
    (hlogin : Message.Fits ⟨tagRlogin, name⟩) (hne : name ≠ user)
    (hattends : Attends (pre ++ ⟨u, 1, .insert r⟩ :: post) s u name room conn buffer) :
    (∀ q sender text sent, ⟨i, typed.length + 1, .broadcast q sender text⟩ ∈ post →
      ⟨i, typed.length + 1, .reply sendallOk sent⟩ ∈ pre ++ ⟨u, 1, .insert r⟩ :: post →
      postsFor u i (typed.length + 1) (pre ++ ⟨u, 1, .insert r⟩ :: post) =
        [⟨i, typed.length + 1,
          delivery (room ++ [newline]) (user ++ [newline]) (t ++ [newline])⟩]) ∧
    ∀ (k : ℕ) (p : Post), (posts u (pre ++ ⟨u, 1, .insert r⟩ :: post))[k]? = some p →
      p.session = i → p.serial = typed.length + 1 →
      k < (deliveries u (pre ++ ⟨u, 1, .insert r⟩ :: post)).length →
      ∃ more, conn.mFdbuf.stream =
          lines (sendable (before u (pre ++ ⟨u, 1, .insert r⟩ :: post) k)) ++
            Connection.encode p.msg ++ more ∧
        (Receiver.Prints conn name room buffer p.msg more (user ++ str ": " ++ t ++ [newline]) ↔
          ∀ p' ∈ (posts u (pre ++ ⟨u, 1, .insert r⟩ :: post)).take k, p'.msg.Passable) := by
  have hcmd := Sender.command_sendall hjoin hleave hquit
  have hrequests : ∀ msg ∈ Receiver.requests name room, msg.Fits := fun msg hmsg => by
    rcases List.mem_cons.mp hmsg with rfl | hmsg
    · exact hlogin
    · rw [List.mem_singleton.mp hmsg]
      exact hlimit.join_fits
  obtain ⟨hrole, hname, hroom⟩ := receiver_joined hrun hattends hrequests
  constructor
  · intro q sender text sent hcast hreply
    obtain ⟨-, hsender, htext, hsame⟩ := sender_broadcast hrun htypes
      (hlimit.requests_fit hcmd htyped) hlimit.plainUser.noColon hlimit.plainText.noColon hcmd
      (List.mem_append_right _ (List.mem_cons_of_mem _ hcast))
    obtain rfl : q = r := Option.some.inj ((hsame room hafter).symm.trans hroom)
    have hother : (s.shared.user u).username ≠ sender := by
      rw [hname, hsender]
      exact login_ne hlogin.noNewline hne
    obtain ⟨roomName, hregistered, hposted⟩ := posted_once_joined hrun hrole hcast hother hreply
    rw [firstField_of_notMem hlimit.plainRoom.noColon] at hroom
    rw [hposted, (registered hrun).registry.injective _ _ q hregistered hroom, hsender, htext]
  · intro k p hp hi hn hk
    have hmsg := post_of_line hrun hlimit hcmd htyped hafter htypes (List.mem_of_getElem? hp) hi hn
    obtain ⟨c, n, remote, -, -, haccept, hwire, -⟩ := hattends.main
    obtain ⟨more, hmore⟩ := delivered_written hrun haccept hwire hrole hp hk (hmsg ▸ hlimit.delivery_fits)
    obtain ⟨later, hlater⟩ := hattends.back.written
    rw [hmore, List.append_assoc] at hlater
    refine ⟨more ++ later, hlater.symm, ?_⟩
    rw [Receiver.prints_iff hattends.back.intact fun c hb hst buf =>
      body_prints hlimit hmsg hb ⟨_, hst.symm⟩ buf]
    exact main_reaches hrun hattends hlater.symm

/-- A text whose delivery to the lobby takes 255 characters. -/
private def long : Bytes := List.replicate 233 120

/-- Bob joins, Alice types a long line and a short one, and Bob's session delivers both. -/
private def cutOff : List Sched :=
  .client 0 "rlogin:bob\njoin:lobby\n" :: Sched.steps 0 11 ++
    .accept 1 5 [.data ⟨str "slogin:alice\njoin:lobby\nsendall:" ++ long ++ str "\nsendall:hi\n",
      by decide +kernel⟩] [] :: Sched.steps 1 35 ++
    Sched.steps 0 10

private def talker : Connection := .ofFd 3 [.data ⟨str "ok:Sender logged in\nok:Join successful\n" ++
  str "ok:Sendall successful\n", by decide⟩] []

private def stopped : Connection := .ofFd 3 [.data ⟨str "ok:Receiver logged in\nok:Join successful\n" ++
  str "delivery:lobby:alice:" ++ long ++ str "\ndelivery:lobby:alice:hi\n", by decide +kernel⟩] []

/-- Bob's client prints what it reads of the long line, and ends. -/
private theorem stopped_prints {n : ℕ} {c : Client}
    (h : Receiver.main stopped (str "bob") (str "lobby") (fun _ => []) n = .ok c) :
    c.stdout <+: str "alice: " ++ long := by
  have hfirst : ∀ n < 3, ((Receiver.main stopped (str "bob") (str "lobby") (fun _ => []) n).toOption.all
      fun c => c.stdout.isPrefixOf (str "alice: " ++ long)) = true := by decide +kernel
  have hexit : ((Receiver.main stopped (str "bob") (str "lobby") (fun _ => []) 2).toOption.map (·.exit)) =
      some (some 1) := by decide +kernel
  obtain ⟨c₂, hended, hstatus⟩ :
      ∃ c₂, Receiver.main stopped (str "bob") (str "lobby") (fun _ => []) 2 = .ok c₂ ∧
        c₂.exit = some 1 := by
    cases hmain : Receiver.main stopped (str "bob") (str "lobby") (fun _ => []) 2 with
    | error f =>
      rw [hmain] at hexit
      cases hexit
    | ok c₂ =>
      rw [hmain] at hexit
      exact ⟨c₂, rfl, Option.some.inj hexit⟩
  have hprefix : ∀ n < 3, Receiver.main stopped (str "bob") (str "lobby") (fun _ => []) n = .ok c →
      c.stdout <+: str "alice: " ++ long := fun n hn hmain => by
    have hthis := hfirst n hn
    rw [hmain] at hthis
    exact List.isPrefixOf_iff_prefix.mp hthis
  by_cases hn : n < 3
  · exact hprefix n hn h
  · obtain ⟨m, rfl⟩ : ∃ m, n = 2 + m := ⟨n - 2, by omega⟩
    have hsame := Receiver.main_stays hended (by simp [hstatus]) m
    exact hprefix 2 (by decide) (hended.trans (hsame.symm.trans h))

set_option maxRecDepth 8000 in
/-- The long delivery is not read whole, and what `receive` leaves of it ends the client. -/
theorem line_not_printed : ∃ pre post s,
    Run Server.Step {} (pre ++ ⟨0, 1, .insert 0⟩ :: post) s ∧
    WithinLimit (str "alice") (str "lobby") (str "hi") ∧
    Types (pre ++ ⟨0, 1, .insert 0⟩ :: post) 1 (str "alice") [str "/join lobby", long] (str "hi") ∧
    Attends (pre ++ ⟨0, 1, .insert 0⟩ :: post) s 0 (str "bob") (str "lobby") stopped (fun _ => []) ∧
    (posts 0 (pre ++ ⟨0, 1, .insert 0⟩ :: post))[1]? = some ⟨1, 3, ⟨tagDelivery, str "lobby:alice:hi"⟩⟩ ∧
    (deliveries 0 (pre ++ ⟨0, 1, .insert 0⟩ :: post)).length = 2 ∧
    ∀ n c, Receiver.main stopped (str "bob") (str "lobby") (fun _ => []) n = .ok c →
      ¬ str "alice: hi\n" <:+: c.stdout := by
  obtain ⟨⟨es, s⟩, h⟩ :=
    Option.isSome_iff_exists.mp (show (outcome cutOff).isSome = true by decide +kernel)
  have at0 : (outcome cutOff).bind (fun p => p.1[0]?) = some ⟨0, 0, .accept (.ofFd 4
      [.data ⟨str "rlogin:bob\njoin:lobby\n", by decide⟩] [])⟩ := rfl
  have at9 : (outcome cutOff).bind (fun p => p.1[9]?) = some ⟨0, 1, .insert 0⟩ := rfl
  have at12 : (outcome cutOff).bind (fun p => p.1[12]?) = some ⟨1, 0, .accept (.ofFd 5
      [.data ⟨str "slogin:alice\njoin:lobby\nsendall:" ++ long ++ str "\nsendall:hi\n",
        by decide +kernel⟩] [])⟩ := rfl
  have hpost : (outcome cutOff).bind (fun p => (posts 0 p.1)[1]?) =
      some ⟨1, 3, ⟨tagDelivery, str "lobby:alice:hi"⟩⟩ := by decide +kernel
  have hcount : (outcome cutOff).map (fun p => (deliveries 0 p.1).length) = some 2 := by
    decide +kernel
  have hwire : (outcome cutOff).map (fun p => (p.2.thread 0).conn.wire.written) =
      some (str "ok:Receiver logged in\nok:Join successful\n" ++
        str "delivery:lobby:alice:" ++ long ++ str "\ndelivery:lobby:alice:hi\n") := by decide +kernel
  rw [h] at at0 at9 at12 hpost hcount hwire
  have hbytes : (s.thread 0).conn.wire.written = str "ok:Receiver logged in\nok:Join successful\n" ++
      str "delivery:lobby:alice:" ++ long ++ str "\ndelivery:lobby:alice:hi\n" := Option.some.inj hwire
  have htypes : Types es 1 (str "alice") [str "/join lobby", long] (str "hi") := by
    refine ⟨talker, fun _ => [], [], _, 0, _, by simp [talker, Wire.Healthy, Connection.ofFd], rfl,
      rfl, rfl, List.mem_of_getElem? at12, ?_, rfl⟩
    exact List.prefix_iff_eq_take.mpr (by decide +kernel)
  have hattends : Attends es s 0 (str "bob") (str "lobby") stopped (fun _ => []) := by
    refine ⟨⟨_, 0, _, rfl, rfl, List.mem_of_getElem? at0, by simp [Wire.Healthy, Connection.ofFd],
      ?_, rfl⟩, by simp [stopped, Wire.Healthy, Connection.ofFd], rfl, ?_, rfl⟩
    · exact List.prefix_iff_eq_take.mpr (by decide +kernel)
    · rw [hbytes]
      exact List.prefix_iff_eq_take.mpr (by decide +kernel)
  have hcut := Run.cut (show es[9]? = some ⟨0, 1, .insert 0⟩ from at9)
  have hlimit : WithinLimit (str "alice") (str "lobby") (str "hi") :=
    ⟨by decide, by decide, by decide, by decide⟩
  refine ⟨es.take 9, es.drop 10, s, ?_⟩
  rw [← hcut]
  refine ⟨run_of_outcome h, hlimit, htypes, hattends, hpost, Option.some.inj hcount, fun n c hmain hin => ?_⟩
  have hprinted := hin.trans (stopped_prints hmain).isInfix
  have hnewline : newline ∉ str "alice: " ++ long := by decide +kernel
  exact hnewline (hprinted.subset (by decide))

/-- Bob joins, Alice types two lines, and Bob's session delivers both. -/
private def chatter : List Sched :=
  .client 0 "rlogin:bob\njoin:lobby\n" :: Sched.steps 0 11 ++
    .client 1 "slogin:alice\njoin:lobby\nsendall:hi\nsendall:yo\n" :: Sched.steps 1 35 ++
    Sched.steps 0 10

private def alice : Connection := .ofFd 3 [.data ⟨str "ok:Sender logged in\nok:Join successful\n" ++
  str "ok:Sendall successful\n", by decide⟩] []

private def bob : Connection := .ofFd 3 [.data ⟨str "ok:Receiver logged in\nok:Join successful\n" ++
  str "delivery:lobby:alice:hi\ndelivery:lobby:alice:yo\n", by decide⟩] []

set_option maxRecDepth 8000 in
theorem line_printed_chatter : ∃ es s more, Run Server.Step {} es s ∧
    (posts 0 es)[1]? = some ⟨1, 3, ⟨tagDelivery, str "lobby:alice:yo"⟩⟩ ∧
    Receiver.Prints bob (str "bob") (str "lobby") (fun _ => [])
      ⟨tagDelivery, str "lobby:alice:yo"⟩ more (str "alice: yo\n") := by
  obtain ⟨⟨es, s⟩, h⟩ :=
    Option.isSome_iff_exists.mp (show (outcome chatter).isSome = true by decide +kernel)
  have at0 : (outcome chatter).bind (fun p => p.1[0]?) = some ⟨0, 0, .accept (.ofFd 4
      [.data ⟨str "rlogin:bob\njoin:lobby\n", by decide⟩] [])⟩ := rfl
  have at9 : (outcome chatter).bind (fun p => p.1[9]?) = some ⟨0, 1, .insert 0⟩ := rfl
  have at12 : (outcome chatter).bind (fun p => p.1[12]?) = some ⟨1, 0, .accept (.ofFd 4
      [.data ⟨str "slogin:alice\njoin:lobby\nsendall:hi\nsendall:yo\n", by decide⟩] [])⟩ := rfl
  have hposts : (outcome chatter).map (fun p => posts 0 p.1) =
      some [⟨1, 2, ⟨tagDelivery, str "lobby:alice:hi"⟩⟩,
        ⟨1, 3, ⟨tagDelivery, str "lobby:alice:yo"⟩⟩] := by decide +kernel
  have hcount : (outcome chatter).map (fun p => (deliveries 0 p.1).length) = some 2 := by
    decide +kernel
  have hwire : (outcome chatter).map (fun p => (p.2.thread 0).conn.wire.written) =
      some (str "ok:Receiver logged in\nok:Join successful\n" ++
        str "delivery:lobby:alice:hi\ndelivery:lobby:alice:yo\n") := by decide +kernel
  rw [h] at at0 at9 at12 hposts hcount hwire
  have hrun := run_of_outcome h
  have hbytes : (s.thread 0).conn.wire.written =
      str "ok:Receiver logged in\nok:Join successful\n" ++
        str "delivery:lobby:alice:hi\ndelivery:lobby:alice:yo\n" := Option.some.inj hwire
  have htypes : Types es 1 (str "alice") [str "/join lobby", str "hi"] (str "yo") := by
    refine ⟨alice, fun _ => [], [], _, 0, _, by simp [alice, Wire.Healthy, Connection.ofFd], rfl,
      rfl, rfl, List.mem_of_getElem? at12, ?_, rfl⟩
    exact List.prefix_iff_eq_take.mpr (by decide +kernel)
  have hattends : Attends es s 0 (str "bob") (str "lobby") bob (fun _ => []) := by
    refine ⟨⟨_, 0, _, rfl, rfl, List.mem_of_getElem? at0, by simp [Wire.Healthy, Connection.ofFd],
      ?_, rfl⟩, by simp [bob, Wire.Healthy, Connection.ofFd], rfl, ?_, rfl⟩
    · exact List.prefix_iff_eq_take.mpr (by decide +kernel)
    · rw [hbytes]
      exact List.prefix_iff_eq_take.mpr (by decide +kernel)
  have hcut := Run.cut (show es[9]? = some ⟨0, 1, .insert 0⟩ from at9)
  have hlimit : WithinLimit (str "alice") (str "lobby") (str "yo") :=
    ⟨by decide, by decide, by decide, by decide⟩
  have htyped : ∀ l ∈ [str "/join lobby", str "hi"], (Sender.command l).message.Fits := by decide
  have hlogin : Message.Fits ⟨tagRlogin, str "bob"⟩ := by decide
  rw [hcut] at hrun htypes hattends
  obtain ⟨-, hprints⟩ := line_printed_iff hrun hlimit (by decide) (by decide) (by decide) htyped
    (by decide) htypes hlogin (by decide) hattends
  rw [← hcut] at hrun hprints
  have htwo : (deliveries 0 es).length = 2 := Option.some.inj hcount
  have hqueued : posts 0 es = [⟨1, 2, ⟨tagDelivery, str "lobby:alice:hi"⟩⟩,
    ⟨1, 3, ⟨tagDelivery, str "lobby:alice:yo"⟩⟩] := Option.some.inj hposts
  have hget : (posts 0 es)[1]? = some ⟨1, 3, ⟨tagDelivery, str "lobby:alice:yo"⟩⟩ := by
    rw [hqueued]
    rfl
  obtain ⟨more, -, hiff⟩ := hprints 1 _ hget rfl rfl (by omega)
  exact ⟨es, s, more, hrun, hget, hiff.mpr (by rw [hqueued]; decide)⟩

end Server
end Chat
