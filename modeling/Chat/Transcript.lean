import Chat.DeliveryForm
import Chat.EndToEnd

/-! What a receiver client prints: the conversation in its room, as far as its session has passed it on. -/
namespace Chat
open Transition Lines Tokens

/-- The text of a delivery as its client gets it: up to the first colon, with the terminator if there is
no colon. -/
def textField (text : Bytes) : Bytes := (removeNewline text ++ [newline]).takeWhile (· ≠ colon)

/-- What a receiver's client prints of a broadcast: nothing if the text begins with a colon. -/
def Broadcast.shown (b : Broadcast) : Bytes :=
  if textField b.text = [] then [] else removeNewline b.sender ++ str ": " ++ textField b.text

private theorem colon_notMem_textField (text : Bytes) : colon ∉ textField text := fun h => by
  simpa using List.mem_takeWhile_imp h

private theorem tokens_names {room user : Bytes} (hroom : colon ∉ room) (huser : colon ∉ user) (t : Bytes) :
    tokens colon (room ++ [colon] ++ user ++ [colon] ++ t) = room :: user :: tokens colon t := by
  simp only [List.append_assoc, List.cons_append, List.nil_append]
  rw [tokens_append_sep hroom, tokens_append_sep huser]

/-- A broadcast that a delivery can show whole: names without a separator, and no NUL. -/
structure Broadcast.Clean (b : Broadcast) (roomName : Bytes) : Prop where
  roomColon : colon ∉ roomName
  senderColon : colon ∉ b.sender
  roomNul : 0 ∉ roomName
  senderNul : 0 ∉ b.sender
  textNul : 0 ∉ b.text

namespace Broadcast.Clean

variable {b : Broadcast} {roomName : Bytes} (h : b.Clean roomName)
include h

/-- What the client makes of the line of a broadcast, whatever its text is. -/
private theorem decode_delivery (hnul : 0 ∉ Connection.encode (delivery roomName b.sender b.text)) :
    decode (Connection.encode (delivery roomName b.sender b.text)) = some ⟨tagDelivery,
      removeNewline roomName ++ [colon] ++ removeNewline b.sender ++ [colon] ++ textField b.text⟩ := by
  have hfirst : tokens colon (removeNewline b.text ++ [newline]) = textField b.text ::
      tokens colon ((removeNewline b.text ++ [newline]).dropWhile (· ≠ colon)).tail := by
    rw [tokens_eq_getline]
    cases hp : removeNewline b.text ++ [newline] with
    | nil => simp at hp
    | cons c cs => simp [getline, textField, hp]
  unfold decode
  rw [fields_delivery hnul, delivery, List.append_assoc _ (removeNewline b.text),
    tokens_names (fun hc => h.roomColon (mem_of_mem_removeNewline hc))
      (fun hc => h.senderColon (mem_of_mem_removeNewline hc)), hfirst]
  exact if_pos rfl

private theorem print_delivery (c : Client) :
    Receiver.print c (removeNewline roomName ++ [colon] ++ removeNewline b.sender ++ [colon] ++
      textField b.text) = { c with stdout := c.stdout ++ b.shown } := by
  have hsender : 0 ∉ removeNewline b.sender := fun h0 => h.senderNul (mem_of_mem_removeNewline h0)
  have htext : 0 ∉ textField b.text := fun h0 => by
    have hmem := (List.takeWhile_prefix _).subset h0
    have hnewline : (0 : UInt8) ≠ newline := by decide
    simp only [List.mem_append, List.mem_singleton, hnewline, or_false] at hmem
    exact h.textNul (mem_of_mem_removeNewline hmem)
  unfold Receiver.print Broadcast.shown
  rw [Receiver.split_eq_tokens, tokens_names (fun hc => h.roomColon (mem_of_mem_removeNewline hc))
    (fun hc => h.senderColon (mem_of_mem_removeNewline hc))]
  by_cases hnil : textField b.text = []
  · simp [hnil]
  · rw [tokens_of_notMem (colon_notMem_textField b.text) hnil]
    simp [hnil, cString_eq_self hsender, cString_eq_self htext]

/-- One iteration of the client's loop takes the line of the broadcast and prints it. -/
theorem body_prints (hlength : (Connection.encode (delivery roomName b.sender b.text)).length ≤ lineMax)
    {c : Client} {more : Bytes} (hb : c.conn.mFdbuf.broken = false)
    (hst : c.conn.mFdbuf.stream = Connection.encode (delivery roomName b.sender b.text) ++ more)
    (buffer : Bytes) : ∃ conn, Receiver.body buffer c =
        .ok { c with conn, stdout := c.stdout ++ b.shown } ∧
      conn.mFdbuf.stream = more ∧ conn.mFdbuf.broken = false := by
  have hfits := fits_delivery h.roomNul h.senderNul h.textNul hlength
  obtain ⟨conn, hbody, hst', hb'⟩ := Receiver.body_delivery hb hst hfits
    (h.decode_delivery hfits.nul_encode) rfl buffer
  rw [h.print_delivery] at hbody
  exact ⟨conn, hbody, hst', hb'⟩

end Broadcast.Clean

namespace Receiver

variable {conn : Connection} {username roomName : Bytes} {buffer : ℕ → Bytes} {c₀ : Client}

private theorem stdout_zero (h : main conn username roomName buffer 0 = .ok c₀)
    (hlive : c₀.exit = none) : c₀.stdout = [] := by
  by_cases hopen : conn.isOpen = true
  · simp only [main, hopen, if_true] at h
    obtain ⟨⟨got, c₁⟩, hcall, h⟩ := ok_of_bind h
    obtain ⟨resp, conn₁, h, rfl, -⟩ := Client.call_continues hcall h hlive
    obtain ⟨⟨got', c₂⟩, hcall', h⟩ := ok_of_bind (Client.accepted h hlive)
    obtain ⟨resp', conn₂, h, rfl, -⟩ := Client.call_continues hcall' h hlive
    obtain rfl := Except.ok.inj (Client.accepted h hlive)
    rfl
  · simp only [main, hopen] at h
    obtain rfl := Except.ok.inj h
    simp [Client.fail] at hlive

/-- While the lines that come are those of broadcasts, the client prints them, one at each iteration. -/
theorem main_prints (h : main conn username roomName buffer 0 = .ok c₀) (hlive : c₀.exit = none)
    (hb : conn.mFdbuf.broken = false) {n more : Bytes} {bs : List Broadcast}
    (hst : rest newline lineMax conn.mFdbuf.stream 2 =
      lines (bs.map fun b => delivery n b.sender b.text) ++ more)
    (hall : ∀ b ∈ bs, b.Clean n ∧ (Connection.encode (delivery n b.sender b.text)).length ≤ lineMax) :
    ∀ k ≤ bs.length, ∃ c, main conn username roomName buffer k = .ok c ∧ c.exit = none ∧
      c.stdout = (bs.take k).flatMap Broadcast.shown ∧
      c.conn.mFdbuf.stream = lines ((bs.drop k).map fun b => delivery n b.sender b.text) ++ more ∧
      c.conn.mFdbuf.broken = false := by
  intro k hk
  induction k with
  | zero =>
    obtain ⟨-, hread⟩ := main_zero h hlive
    obtain ⟨hst₀, hb₀⟩ := hread hb
    exact ⟨c₀, h, hlive, stdout_zero h hlive, hst₀.trans hst, hb₀⟩
  | succ k ih =>
    obtain ⟨c, hmain, hexit, hstdout, hst', hb'⟩ := ih (by omega)
    have hlt : k < bs.length := by omega
    obtain ⟨hclean, hlength⟩ := hall bs[k] (List.getElem_mem hlt)
    rw [List.drop_eq_getElem_cons hlt, List.map_cons, lines_cons, List.append_assoc] at hst'
    obtain ⟨conn', hbody, hst'', hb''⟩ := hclean.body_prints hlength hb' hst' (buffer (k + 2))
    refine ⟨{ c with conn := conn', stdout := c.stdout ++ bs[k].shown }, ?_, hexit, ?_, hst'', hb''⟩
    · rw [main_succ, hmain]
      simpa [bind, Except.bind, hexit] using hbody
    · rw [List.take_succ_eq_append_getElem hlt, List.flatMap_append, ← hstdout]
      simp

end Receiver

theorem mem_broadcasts {es : List Event} {r : RoomId} {b : Broadcast} (h : b ∈ broadcasts r es) :
    ⟨b.session, b.serial, .broadcast r b.sender b.text⟩ ∈ es := by
  obtain ⟨⟨i, n, a⟩, he, hb⟩ := List.mem_filterMap.mp h
  cases a with
  | broadcast q sender text =>
    by_cases hq : q = r
    · obtain rfl : (⟨i, n, sender, text⟩ : Broadcast) = b := by simpa [hq] using hb
      exact hq ▸ he
    · simp [hq] at hb
  | _ => cases hb

namespace Server

variable {es : List Event} {s : Server} {u : Sid} {r : RoomId} {n name room : Bytes}
  {conn : Connection} {buffer : ℕ → Bytes}

private theorem broadcast_clean_of (hrun : Run Server.Step {} es s) (hn : s.shared.mRooms n = some r)
    {b : Broadcast} (hb : b ∈ broadcasts r es) : b.Clean n := by
  have hmem := mem_broadcasts hb
  have hclean := clean hrun
  obtain ⟨hrooms, husers⟩ := names_colonFree hrun
  have hsender : b.sender = (s.shared.user b.session).username := by
    obtain ⟨pre, post, rfl⟩ := List.append_of_mem hmem
    obtain ⟨s₁, s₂, -, hs, hpost⟩ := hrun.splitAt
    obtain ⟨hacts, -⟩ := hs.acts
    obtain ⟨hpc, -, hsender, -⟩ := hacts.step.broadcast_of
    rw [username_run (.cons hs hpost) (by rw [hpc]; rfl), hsender]
  exact ⟨hrooms n r hn, hsender ▸ husers _, hclean.registry n r hn, hsender ▸ hclean.username _,
    broadcast_clean hrun hmem⟩

/-- The broadcasts that a member of this name gets a message of. -/
def byOthers (username : Bytes) (bs : List Broadcast) : List Broadcast := bs.filter (·.sender ≠ username)

/-- What has been enqueued for a receiver is the beginning of what others have said in its room. -/
private theorem posts_of_others {pre post : List Event} {k : ℕ}
    (hrun : Run Server.Step {} (pre ++ ⟨u, k, .insert r⟩ :: post) s)
    (hrole : (s.thread u).role = .receiver) (hn : s.shared.mRooms n = some r) :
    (posts u (pre ++ ⟨u, k, .insert r⟩ :: post)).map (·.msg) <+:
      (byOthers (s.shared.user u).username (broadcasts r post)).map fun b =>
        delivery n b.sender b.text := by
  obtain ⟨n', s₁, h₁, hpost, hjoined, hbefore, hnone, -⟩ := join_split hrun hrole
  obtain ⟨hjoined', hname, hlog⟩ := hjoined.log h₁ hpost
  rw [(registered hrun).registry.injective _ _ r hjoined'.registered hn] at hlog hnone
  have hmsgs := congrArg (List.map Post.msg) hlog
  rw [hnone, List.nil_append, ← hname, expected, List.map_append, List.map_map] at hmsgs
  rw [← List.singleton_append, posts_append, posts_append, hbefore]
  exact ⟨_, hmsgs⟩

private theorem replies_fit {msgs : List Message} (h : ∀ msg ∈ msgs, msg.Fits) :
    ∀ msg ∈ loginSuccess tagRlogin :: joinOk :: msgs, msg.Fits := by
  intro msg hmsg
  rcases List.mem_cons.mp hmsg with rfl | hmsg
  · decide
  rcases List.mem_cons.mp hmsg with rfl | hmsg
  · decide
  exact h msg hmsg

/-- A receiver's session has written the lines of its first `k` deliveries after its two replies. -/
private theorem written_first (hrun : Run Server.Step {} es s) {m k : ℕ} {remote : Connection}
    (haccept : ⟨u, m, .accept remote⟩ ∈ es) (hwire : remote.wire.Healthy)
    (hrole : (s.thread u).role = .receiver) (hpos : 0 < k) (hk : k ≤ (deliveries u es).length)
    (hfits : ∀ msg ∈ ((posts u es).map (·.msg)).take k, msg.Fits) :
    lines (loginSuccess tagRlogin :: joinOk :: ((posts u es).map (·.msg)).take k) <+:
      (s.thread u).conn.wire.written := by
  obtain ⟨b, b', hsends⟩ := sends_of_deliveries hrun hrole (List.ne_nil_of_length_pos (by omega))
  have hall := (Prod.mk.inj (wire_of_sends hrun haccept)).2
  obtain ⟨later, hlater⟩ := deliveries_of_posts hrun u
  have hlen : k ≤ ((deliveries u es).map Prod.fst).length := by simpa using hk
  have htake : ((posts u es).map (·.msg)).take k = ((deliveries u es).map Prod.fst).take k := by
    rw [← hlater, List.take_append_of_le_length hlen]
  have hsplit : (sends u es).map Prod.fst =
      (loginSuccess tagRlogin :: joinOk :: ((posts u es).map (·.msg)).take k) ++
        ((deliveries u es).map Prod.fst).drop k := by
    rw [hsends, htake]
    simp
  rw [hsplit, Wire.sendAll_append] at hall
  obtain ⟨hhealthy, -⟩ := Wire.sendAll_grows hwire
    (loginSuccess tagRlogin :: joinOk :: ((posts u es).map (·.msg)).take k)
  obtain ⟨-, hgrows⟩ := Wire.sendAll_grows hhealthy (((deliveries u es).map Prod.fst).drop k)
  rw [written_sendAll hwire (replies_fit hfits), accept_written hrun haccept, List.nil_append] at hgrows
  rwa [← hall]

/-- The first messages enqueued for a receiver are those of the first broadcasts of others, and are fit to be
sent if these are short. -/
private theorem first_posts {pre post : List Event} {k : ℕ} {bs : List Broadcast}
    (hrun : Run Server.Step {} (pre ++ ⟨u, 1, .insert r⟩ :: post) s)
    (hrole : (s.thread u).role = .receiver) (hn : s.shared.mRooms n = some r)
    (hbs : byOthers (s.shared.user u).username (broadcasts r post) = bs)
    (hk : k ≤ (posts u (pre ++ ⟨u, 1, .insert r⟩ :: post)).length)
    (hlimit : ∀ b ∈ bs.take k, (Connection.encode (delivery n b.sender b.text)).length ≤ lineMax) :
    ((posts u (pre ++ ⟨u, 1, .insert r⟩ :: post)).map (·.msg)).take k =
        ((bs.take k).map fun b => delivery n b.sender b.text) ∧
      (∀ b ∈ bs.take k, b.Clean n) ∧
      ∀ msg ∈ (bs.take k).map fun b => delivery n b.sender b.text, msg.Fits := by
  obtain ⟨more, hmore⟩ := posts_of_others hrun hrole hn
  rw [hbs] at hmore
  have hclean : ∀ b ∈ bs.take k, b.Clean n := fun b hb => by
    have hmem : b ∈ broadcasts r post := by
      have hbs' : b ∈ bs := List.mem_of_mem_take hb
      rw [← hbs] at hbs'
      exact (List.mem_filter.mp hbs').1
    refine broadcast_clean_of hrun hn ?_
    rw [broadcasts_append]
    exact List.mem_append_right _ hmem
  refine ⟨?_, hclean, fun msg hmsg => ?_⟩
  · rw [List.map_take, ← hmore, List.take_append_of_le_length (by simpa using hk)]
  · obtain ⟨b, hb, rfl⟩ := List.mem_map.mp hmsg
    have hb' := hclean b hb
    exact fits_delivery hb'.roomNul hb'.senderNul hb'.textNul (hlimit b hb)

/-- After one iteration for each of the first `k` deliveries a receiver client has printed what others have
said in its room since it joined. -/
theorem printed {pre post : List Event}
    (hrun : Run Server.Step {} (pre ++ ⟨u, 1, .insert r⟩ :: post) s)
    (hattends : Attends (pre ++ ⟨u, 1, .insert r⟩ :: post) s u name room conn buffer)
    (hrequests : ∀ msg ∈ Receiver.requests name room, msg.Fits) {k : ℕ}
    (hk : k ≤ (deliveries u (pre ++ ⟨u, 1, .insert r⟩ :: post)).length)
    (hlimit : ∀ b ∈ (byOthers (s.shared.user u).username (broadcasts r post)).take k,
      (Connection.encode (delivery (Message.received ⟨tagJoin, room⟩).data b.sender b.text)).length ≤ 254) :
    ∃ c, Receiver.main conn name room buffer k = .ok c ∧ c.exit = none ∧
      c.stdout = ((byOthers (Message.received ⟨tagRlogin, name⟩).data (broadcasts r post)).take k).flatMap
        Broadcast.shown := by
  obtain ⟨hrole, hname, hroom⟩ := receiver_joined hrun hattends hrequests
  obtain ⟨c₀, m, remote, hmain, hlive, haccept, hwire, -⟩ := hattends.main
  obtain ⟨hcarried, hintact⟩ := hattends.back
  have husername : (s.shared.user u).username = (Message.received ⟨tagRlogin, name⟩).data := hname
  have hn : s.shared.mRooms (Message.received ⟨tagJoin, room⟩).data = some r := hroom
  rw [← husername]
  generalize (Message.received ⟨tagJoin, room⟩).data = n at hn hlimit
  generalize hbs : byOthers (s.shared.user u).username (broadcasts r post) = bs at hlimit
  rcases Nat.eq_zero_or_pos k with rfl | hpos
  · exact ⟨c₀, hmain, hlive, by simp [Receiver.stdout_zero hmain hlive]⟩
  have hposted := (deliveries_of_posts hrun u).length_le
  rw [List.length_map, List.length_map] at hposted
  obtain ⟨htake, hclean, hfits⟩ := first_posts hrun hrole hn hbs (hk.trans hposted) hlimit
  have hwritten := written_first hrun haccept hwire hrole hpos hk (by rwa [htake])
  rw [htake] at hwritten
  obtain ⟨later, hlater⟩ := hwritten.trans hcarried
  have hrest : rest newline lineMax conn.mFdbuf.stream 2 =
      lines ((bs.take k).map fun b => delivery n b.sender b.text) ++ later := by
    have hafter := rest_lines (replies_fit hfits) later
      (show 2 ≤ (loginSuccess tagRlogin :: joinOk :: _).length by simp)
    rw [hlater] at hafter
    exact hafter
  have hlength : k ≤ (bs.take k).length := by
    have hlen := congrArg List.length htake
    simp only [List.length_take, List.length_map] at hlen ⊢
    omega
  obtain ⟨c, hc, hexit, hstdout, -⟩ := Receiver.main_prints hmain hlive hintact hrest
    (fun b hb => ⟨hclean b hb, hlimit b hb⟩) k hlength
  rw [List.take_take, min_self] at hstdout
  exact ⟨c, hc, hexit, hstdout⟩

end Server
end Chat
