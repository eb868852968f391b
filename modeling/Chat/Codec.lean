import Chat.Decoder
import Chat.Room
import Chat.Wire

/-! One message from `send` to `receive`: the line that it goes out as, and what the peer makes
of that line. -/
namespace Chat
open Lines Tokens

/-- Free of the bytes that mean something on a line. -/
structure Plain (s : Bytes) : Prop where
  noColon : colon ∉ s
  noNewline : newline ∉ s
  noNul : 0 ∉ s

theorem plain_iff {s : Bytes} : Plain s ↔ colon ∉ s ∧ newline ∉ s ∧ 0 ∉ s :=
  ⟨fun h => ⟨h.noColon, h.noNewline, h.noNul⟩, fun h => ⟨h.1, h.2.1, h.2.2⟩⟩

instance : DecidablePred Plain := fun _ => decidable_of_iff' _ plain_iff

/-- A line without a separator is one field. -/
theorem firstField_of_notMem {s : Bytes} (h : colon ∉ s) :
    (s ++ [newline]).takeWhile (· ≠ colon) = s ++ [newline] := by
  refine List.takeWhile_eq_self_iff.mpr fun b hb => decide_eq_true fun hbc => ?_
  have hmem : colon ∈ s ++ [newline] := hbc ▸ hb
  have hend : colon ≠ newline := by decide
  simp [h, hend] at hmem

namespace Message

/-- What follows the tag on the line. -/
def payload (msg : Message) : Bytes :=
  if msg.tag = tagQuit ∨ msg.tag = tagLeave then str "bye" else msg.data

/-- The message goes out as one line. -/
structure OneLine (msg : Message) : Prop where
  tag : Plain msg.tag
  noNewline : newline ∉ msg.data
  noNul : 0 ∉ msg.data

/-- The message goes out as one line, and `receive` reads that line whole. -/
structure Fits (msg : Message) : Prop where
  tag : Plain msg.tag
  noNewline : newline ∉ msg.data
  noNul : 0 ∉ msg.data
  data : msg.data.length ≤ maxLen
  length : (Connection.encode msg).length ≤ lineMax

variable {msg : Message}

theorem fits_iff : msg.Fits ↔ Plain msg.tag ∧ newline ∉ msg.data ∧ 0 ∉ msg.data ∧
    msg.data.length ≤ maxLen ∧ (Connection.encode msg).length ≤ lineMax :=
  ⟨fun h => ⟨h.tag, h.noNewline, h.noNul, h.data, h.length⟩,
    fun h => ⟨h.1, h.2.1, h.2.2.1, h.2.2.2.1, h.2.2.2.2⟩⟩

instance : DecidablePred Fits := fun _ => decidable_of_iff' _ fits_iff

theorem encode_eq (msg : Message) :
    Connection.encode msg = msg.tag ++ [colon] ++ msg.payload ++ [newline] := by
  unfold Connection.encode payload
  split <;> rfl

theorem encode_length (msg : Message) :
    (Connection.encode msg).length = msg.tag.length + msg.payload.length + 2 := by
  rw [encode_eq]
  simp only [List.length_append, List.length_singleton]
  omega

private theorem payload_free {b : UInt8} (hbye : b ∉ str "bye") (h : b ∉ msg.data) :
    b ∉ msg.payload := by
  unfold payload
  split
  · exact hbye
  · exact h

theorem nul_encode (htag : 0 ∉ msg.tag) (hdata : 0 ∉ msg.data) : 0 ∉ Connection.encode msg := by
  have hpayload := payload_free (by decide) hdata
  simp [encode_eq, htag, hpayload, colon, newline]

theorem OneLine.line (h : msg.OneLine) :
    ∃ xs, Connection.encode msg = xs ++ [newline] ∧ newline ∉ xs := by
  refine ⟨msg.tag ++ [colon] ++ msg.payload, encode_eq msg, ?_⟩
  have hpayload := payload_free (by decide) h.noNewline
  have hcolon : newline ≠ colon := by decide
  simp [h.tag.noNewline, hpayload, hcolon]

theorem OneLine.nul_encode (h : msg.OneLine) : 0 ∉ Connection.encode msg :=
  Message.nul_encode h.tag.noNul h.noNul

theorem Fits.oneLine (h : msg.Fits) : msg.OneLine := ⟨h.tag, h.noNewline, h.noNul⟩

theorem Fits.nul_encode (h : msg.Fits) : 0 ∉ Connection.encode msg := h.oneLine.nul_encode

theorem Fits.whole (h : msg.Fits) : Whole newline lineMax (Connection.encode msg) := by
  obtain ⟨xs, hxs, hnl⟩ := h.oneLine.line
  exact ⟨xs, hxs, hnl, h.length⟩

theorem Fits.send (h : msg.Fits) {wire : Wire} (hwire : wire.Healthy) :
    (wire.send msg).1 = true ∧ (wire.send msg).2.Healthy ∧
      (wire.send msg).2.written = wire.written ++ Connection.encode msg := by
  have hdata : strlen msg.data ≤ maxLen := by
    rw [strlen_eq_length h.noNul]
    exact h.data
  have hsend := Wire.send_healthy hwire hdata
  rwa [cString_eq_self h.nul_encode] at hsend

/-- What the peer makes of a message that is not a delivery. -/
def received (msg : Message) : Message :=
  ⟨msg.tag, (msg.payload ++ [newline]).takeWhile (· ≠ colon)⟩

theorem Fits.decode (h : msg.Fits) (htag : msg.tag ≠ tagDelivery) :
    decode (Connection.encode msg) = some msg.received := by
  have hfields : fields (Connection.encode msg) =
      msg.tag :: tokens colon (msg.payload ++ [newline]) := by
    rw [fields, cString_eq_self h.nul_encode, encode_eq, List.append_assoc, List.append_assoc]
    simpa using tokens_append_sep h.tag.noColon (msg.payload ++ [newline])
  have hne : msg.payload ++ [newline] ≠ [] := by simp
  unfold Chat.decode
  rw [hfields]
  cases hp : msg.payload ++ [newline] with
  | nil => exact absurd hp hne
  | cons b bs =>
    rw [tokens_eq_getline, getline]
    simp [htag, received, hp]

/-- The peer takes the whole line off its stream, and no byte of what follows it. -/
theorem Fits.receive (h : msg.Fits) (htag : msg.tag ≠ tagDelivery) {conn : Connection}
    {more : Bytes} (hst : conn.mFdbuf.stream = Connection.encode msg ++ more) (buffer : Bytes)
    (msg₀ : Message) :
    ∃ conn', conn.receive buffer msg₀ = .ok (true, msg.received, conn') ∧
      conn'.mFdbuf.stream = more ∧ conn'.mFdbuf.broken = conn.mFdbuf.broken := by
  obtain ⟨xs, hxs, hnl, hlen⟩ := h.whole
  have hfit : xs.length < lineMax := by
    rw [hxs, List.length_append, List.length_singleton] at hlen
    omega
  have hsplit : conn.mFdbuf.stream = xs ++ newline :: more := by simp [hst, hxs]
  have hline : conn.mFdbuf.nextLine = Connection.encode msg := by
    rw [Rio.nextLine, hsplit, takeLine_terminated hnl hfit, hxs]
  have hrest : dropLine newline lineMax conn.mFdbuf.stream = more := by
    rw [hsplit, dropLine_terminated hnl hfit]
  have hfails : ¬ conn.mFdbuf.LineFails := fun hfails => by simpa [hline, hxs] using hfails.2.1
  have hne : conn.mFdbuf.stream ≠ [] := by simp [hsplit]
  obtain ⟨rp, hrp, hbroken, hrec⟩ := Connection.receive_line hfails hne buffer msg₀
  have hdec := h.decode htag
  obtain ⟨ok, m, r, hunpack, hres⟩ :=
    Connection.unpack_ok (fieldsOk_of_decode hdec) { conn with mFdbuf := rp } msg₀
  rw [hdec] at hres
  obtain ⟨rfl, -, rfl, -⟩ := hres
  rw [hline] at hrec
  exact ⟨_, hrec.trans hunpack, hrp.trans hrest, hbroken⟩

/-- A message of no special tag, in one line. -/
structure Ordinary (msg : Message) : Prop where
  tag : Plain msg.tag
  quit : msg.tag ≠ tagQuit
  leave : msg.tag ≠ tagLeave
  delivery : msg.tag ≠ tagDelivery
  noNewline : newline ∉ msg.data
  noNul : 0 ∉ msg.data

theorem ordinary_iff : msg.Ordinary ↔ Plain msg.tag ∧ msg.tag ≠ tagQuit ∧ msg.tag ≠ tagLeave ∧
    msg.tag ≠ tagDelivery ∧ newline ∉ msg.data ∧ 0 ∉ msg.data :=
  ⟨fun h => ⟨h.tag, h.quit, h.leave, h.delivery, h.noNewline, h.noNul⟩,
    fun h => ⟨h.1, h.2.1, h.2.2.1, h.2.2.2.1, h.2.2.2.2.1, h.2.2.2.2.2⟩⟩

instance : DecidablePred Ordinary := fun _ => decidable_of_iff' _ ordinary_iff

theorem Ordinary.payload (h : msg.Ordinary) : msg.payload = msg.data := by
  simp [Message.payload, h.quit, h.leave]

theorem Ordinary.nul_encode (h : msg.Ordinary) : 0 ∉ Connection.encode msg :=
  Message.nul_encode h.tag.noNul h.noNul

theorem Ordinary.fits (h : msg.Ordinary) (hlength : (Connection.encode msg).length ≤ lineMax) :
    msg.Fits where
  tag := h.tag
  noNewline := h.noNewline
  noNul := h.noNul
  data := by
    have hmax : lineMax ≤ maxLen := by decide
    rw [encode_length, h.payload] at hlength
    omega
  length := hlength

/-- Data without a separator arrives with its line terminator. -/
theorem received_eq (hquit : msg.tag ≠ tagQuit) (hleave : msg.tag ≠ tagLeave)
    (h : colon ∉ msg.data) : msg.received = ⟨msg.tag, msg.data ++ [newline]⟩ := by
  have hpayload : msg.payload = msg.data := by simp [payload, hquit, hleave]
  rw [received, hpayload, firstField_of_notMem h]

end Message

/-- The lines that some messages go out as. -/
def lines (msgs : List Message) : Bytes := (msgs.map Connection.encode).flatten

@[simp] theorem lines_cons (msg : Message) (msgs : List Message) :
    lines (msg :: msgs) = Connection.encode msg ++ lines msgs := rfl

theorem whole_lines {msgs : List Message} (h : ∀ msg ∈ msgs, msg.Fits) :
    ∀ l ∈ msgs.map Connection.encode, Whole newline lineMax l := by
  intro l hl
  obtain ⟨msg, hmsg, rfl⟩ := List.mem_map.mp hl
  exact (h msg hmsg).whole

theorem rest_lines {msgs : List Message} (h : ∀ msg ∈ msgs, msg.Fits) (more : Bytes) {n : ℕ}
    (hn : n ≤ msgs.length) :
    rest newline lineMax (lines msgs ++ more) n = lines (msgs.drop n) ++ more := by
  have hrest := rest_flatten (whole_lines h) more (by simpa using hn)
  simpa [lines, List.map_drop] using hrest

theorem line_lines {msgs : List Message} (h : ∀ msg ∈ msgs, msg.Fits) (more : Bytes) {n : ℕ}
    {msg : Message} (hmsg : msgs[n]? = some msg) :
    line newline lineMax (lines msgs ++ more) n = Connection.encode msg :=
  line_flatten (whole_lines h) more (by simp [hmsg])

/-- The messages that `send` takes. -/
def sendable (msgs : List Message) : List Message := msgs.filter fun msg => strlen msg.data ≤ maxLen

/-- On a wire that does not fail go the lines of the messages that `send` takes. -/
theorem written_sendable {wire : Wire} (hwire : wire.Healthy) {msgs : List Message}
    (h : ∀ msg ∈ msgs, msg.OneLine) :
    (wire.sendAll msgs).2.written = wire.written ++ lines (sendable msgs) := by
  induction msgs generalizing wire with
  | nil => simp [Wire.sendAll, sendable, lines]
  | cons msg msgs ih =>
    have hrest := ih (Wire.send_grows hwire msg).1 fun m hm => h m (List.mem_cons_of_mem _ hm)
    rw [Wire.sendAll, hrest]
    by_cases hdata : strlen msg.data ≤ maxLen
    · have hwritten := (Wire.send_healthy hwire hdata).2.2
      rw [cString_eq_self (h msg List.mem_cons_self).nul_encode] at hwritten
      simp [sendable, hdata, hwritten]
    · have hrefused : wire.send msg = (false, wire) := by simp [Wire.send, Nat.not_le.mp hdata]
      simp [sendable, hdata, hrefused]

theorem sendable_fits {msgs : List Message} (h : ∀ msg ∈ msgs, msg.Fits) : sendable msgs = msgs := by
  refine List.filter_eq_self.mpr fun msg hmsg => decide_eq_true ?_
  rw [strlen_eq_length (h msg hmsg).noNul]
  exact (h msg hmsg).data

/-- Messages that fit put their lines on a wire that does not fail. -/
theorem written_sendAll {wire : Wire} (hwire : wire.Healthy) {msgs : List Message}
    (h : ∀ msg ∈ msgs, msg.Fits) :
    (wire.sendAll msgs).2.written = wire.written ++ lines msgs := by
  rw [written_sendable hwire fun msg hmsg => (h msg hmsg).oneLine, sendable_fits h]

theorem encode_delivery (roomName sender text : Bytes) :
    Connection.encode (delivery roomName sender text) =
      tagDelivery ++ [colon] ++ (delivery roomName sender text).data ++ [newline] := by
  have htag : ¬ (tagDelivery = tagQuit ∨ tagDelivery = tagLeave) := by decide
  simp [Connection.encode, delivery, htag]

/-- No name or text makes a delivery more than one line: its parts have lost their newlines. -/
theorem oneLine_delivery {roomName sender text : Bytes} (hroom : 0 ∉ roomName) (hsender : 0 ∉ sender)
    (htext : 0 ∉ text) : (delivery roomName sender text).OneLine where
  tag := (by decide : Plain tagDelivery)
  noNewline := by
    have hnone := newline_notMem_removeNewline
    have hcolon : newline ≠ colon := by decide
    simp [delivery, hnone, hcolon]
  noNul := by
    have hroom' : 0 ∉ removeNewline roomName := fun h => hroom (mem_of_mem_removeNewline h)
    have hsender' : 0 ∉ removeNewline sender := fun h => hsender (mem_of_mem_removeNewline h)
    have htext' : 0 ∉ removeNewline text := fun h => htext (mem_of_mem_removeNewline h)
    have hcolon : (0 : UInt8) ≠ colon := by decide
    simp [delivery, hroom', hsender', htext', hcolon]

theorem fits_delivery {roomName sender text : Bytes} (hroom : 0 ∉ roomName) (hsender : 0 ∉ sender)
    (htext : 0 ∉ text)
    (hlength : (Connection.encode (delivery roomName sender text)).length ≤ lineMax) :
    (delivery roomName sender text).Fits := by
  obtain ⟨htag, hnewline, hnul⟩ := oneLine_delivery hroom hsender htext
  refine ⟨htag, hnewline, hnul, ?_, hlength⟩
  have hmax : lineMax ≤ maxLen := by decide
  rw [encode_delivery] at hlength
  simp only [List.length_append] at hlength
  omega

theorem fields_delivery {roomName sender text : Bytes}
    (h : 0 ∉ Connection.encode (delivery roomName sender text)) :
    fields (Connection.encode (delivery roomName sender text)) =
      tagDelivery :: tokens colon ((delivery roomName sender text).data ++ [newline]) := by
  have htag : colon ∉ tagDelivery := by decide
  rw [fields, cString_eq_self h, encode_delivery, List.append_assoc, List.append_assoc]
  simpa using tokens_append_sep htag ((delivery roomName sender text).data ++ [newline])

/-- Whatever the names and the text are, the peer gets some delivery. -/
theorem decode_delivery_tag {roomName sender text : Bytes}
    (h : 0 ∉ Connection.encode (delivery roomName sender text)) :
    ∃ m, decode (Connection.encode (delivery roomName sender text)) = some m ∧
      m.tag = tagDelivery := by
  have hthree : 3 ≤ (tokens colon ((delivery roomName sender text).data ++ [newline])).length := by
    rw [length_tokens (by simp), List.dropLast_concat]
    simp only [delivery, List.count_append, List.count_singleton_self]
    omega
  unfold decode
  rw [fields_delivery h]
  match tokens colon ((delivery roomName sender text).data ++ [newline]), hthree with
  | room :: user :: t :: _, _ => exact ⟨_, if_pos rfl, rfl⟩

/-- The fields of a delivery's data, the last one with the line terminator. -/
theorem tokens_delivery {room user t : Bytes} (hroom : colon ∉ room) (huser : colon ∉ user)
    (ht : colon ∉ t) :
    tokens colon (room ++ [colon] ++ user ++ [colon] ++ (t ++ [newline])) =
      [room, user, t ++ [newline]] := by
  have hlast : colon ∉ t ++ [newline] := by
    have hcolon : colon ≠ newline := by decide
    simp [ht, hcolon]
  simp only [List.append_assoc, List.cons_append, List.nil_append]
  rw [tokens_append_sep hroom, tokens_append_sep huser, tokens_of_notMem hlast (by simp)]

/-- The room, the sender and the text of a delivery arrive, the text with its terminator. -/
theorem decode_delivery {room user t : Bytes} (hroom : Plain room) (huser : Plain user)
    (ht : Plain t) :
    decode (Connection.encode (delivery (room ++ [newline]) (user ++ [newline]) (t ++ [newline]))) =
      some ⟨tagDelivery, room ++ [colon] ++ user ++ [colon] ++ (t ++ [newline])⟩ := by
  have hdata : (delivery (room ++ [newline]) (user ++ [newline]) (t ++ [newline])).data =
      room ++ [colon] ++ user ++ [colon] ++ t := by
    simp [delivery, removeNewline_append_newline, hroom.noNewline, huser.noNewline, ht.noNewline]
  have hnul : 0 ∉ Connection.encode
      (delivery (room ++ [newline]) (user ++ [newline]) (t ++ [newline])) := by
    have htag : (0 : UInt8) ∉ tagDelivery := by decide
    have hcolon : (0 : UInt8) ≠ colon := by decide
    have hnewline : (0 : UInt8) ≠ newline := by decide
    rw [encode_delivery, hdata]
    simp [hroom.noNul, huser.noNul, ht.noNul, htag, hcolon, hnewline]
  have hsplit := tokens_delivery hroom.noColon huser.noColon ht.noColon
  unfold decode
  rw [fields_delivery hnul, hdata, List.append_assoc _ t, hsplit]
  rfl

end Chat
