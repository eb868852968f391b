import Chat.Codec

/-! Framing: when `send` puts exactly one frame on the wire, when successive calls of `receive` take
the frames off again one by one, and when the data comes back as it was sent. -/
namespace Chat
open Lines

/-- One frame of the protocol: its only newline is its last byte, and it is within `MAX_LEN`. -/
abbrev Frame (bs : Bytes) : Prop := Whole newline maxLen bs

namespace Connection

/-- One call of `send` keeps to the protocol: it puts a frame on the wire if it returns true, and
refuses a message whose encoding is not a frame. -/
def SendsFrame (conn : Connection) (msg : Message) : Prop :=
  ∃ sent conn' out, conn.send msg = (sent, conn') ∧
    conn'.wire.written = conn.wire.written ++ out ∧ (sent = true → Frame out) ∧
    (¬ Frame (encode msg) → sent = false ∧ out = [])

private theorem send_loop {conn : Connection} {msg : Message} (h : strlen msg.data ≤ maxLen) :
    ∃ conn', conn.send msg =
        ((writeLoop conn.wire.writes (cString (encode msg))).1, conn') ∧
      conn'.wire.written =
        conn.wire.written ++ (writeLoop conn.wire.writes (cString (encode msg))).2.2 := by
  have hshort : ¬ strlen msg.data > maxLen := by omega
  have hwire : conn.wire.send msg = ((writeLoop conn.wire.writes (cString (encode msg))).1,
      ⟨(writeLoop conn.wire.writes (cString (encode msg))).2.1,
        conn.wire.written ++ (writeLoop conn.wire.writes (cString (encode msg))).2.2⟩) := by
    simp [Wire.send, hshort]
  obtain ⟨r, hsend⟩ := conn.send_wire msg
  rw [hwire] at hsend
  exact ⟨_, hsend, rfl⟩

private theorem sendsFrame_loop {conn : Connection} {msg : Message}
    (h : strlen msg.data ≤ maxLen) : conn.SendsFrame msg ↔
      ((writeLoop conn.wire.writes (cString (encode msg))).1 = true →
        Frame (writeLoop conn.wire.writes (cString (encode msg))).2.2) ∧
      (¬ Frame (encode msg) → (writeLoop conn.wire.writes (cString (encode msg))).1 = false ∧
        (writeLoop conn.wire.writes (cString (encode msg))).2.2 = []) := by
  obtain ⟨conn', hsend, hwritten⟩ := @send_loop conn msg h
  constructor
  · rintro ⟨sent, conn₁, out, hsend₁, hout, hframe, hrefuse⟩
    rw [hsend] at hsend₁
    obtain ⟨rfl, rfl⟩ := Prod.mk.inj hsend₁
    obtain rfl := List.append_cancel_left (hwritten.symm.trans hout)
    exact ⟨hframe, hrefuse⟩
  · rintro ⟨hframe, hrefuse⟩
    exact ⟨_, conn', _, hsend, hwritten, hframe, hrefuse⟩

theorem zero_notMem_of_frame {bs : Bytes} (h : Frame bs) (hc : Frame (cString bs)) : 0 ∉ bs := by
  obtain ⟨xs, hxs, hnl, -⟩ := h
  obtain ⟨ys, hys, -, -⟩ := hc
  intro h0
  have hzero : 0 ∈ xs := by simpa [hxs, newline] using h0
  have hstop : cString bs = cString xs := by
    rw [hxs, cString, cString, List.takeWhile_append, if_neg]
    intro hlen
    have hall := List.takeWhile_eq_self_iff.mp ((List.takeWhile_prefix _).eq_of_length hlen)
    simpa using hall 0 hzero
  have hmem : newline ∈ cString xs := by simp [← hstop, hys]
  exact hnl (mem_of_mem_cString hmem)

private theorem cString_encode_ne_nil {msg : Message} (htag : Plain msg.tag) :
    cString (encode msg) ≠ [] := by
  have hall : ∀ b ∈ msg.tag, decide (b ≠ 0) = true :=
    fun b hb => decide_eq_true fun h0 => htag.noNul (h0 ▸ hb)
  have hcolon : colon ∈ cString (encode msg) := by
    rw [Message.encode_eq, cString, List.append_assoc, List.append_assoc,
      List.takeWhile_append_of_pos hall]
    simp [colon]
  exact List.ne_nil_of_mem hcolon

/-- On a descriptor that takes the whole string, `send` puts it out up to its first NUL. -/
private theorem sendsFrame_whole {conn : Connection} {msg : Message} (h : strlen msg.data ≤ maxLen)
    (hall : Wire.takes conn.wire.writes (strlen (encode msg)) = true) :
    conn.SendsFrame msg ↔ Frame (cString (encode msg)) ∧ Frame (encode msg) := by
  rw [sendsFrame_loop h, Wire.writeLoop_whole hall, Wire.writeLoop_takes]
  change Wire.takes conn.wire.writes (cString (encode msg)).length = true at hall
  constructor
  · rintro ⟨hframe, hrefuse⟩
    refine ⟨hframe hall, ?_⟩
    by_contra hbad
    exact Bool.noConfusion (hall.symm.trans (hrefuse hbad).1)
  · exact fun ⟨hframe, hencode⟩ => ⟨fun _ => hframe, fun hbad => absurd hencode hbad⟩

/-- `send` keeps to the protocol just if the data is too long for it, the descriptor takes nothing
at all, or the encoding is a frame and has no NUL unless writing it breaks off. -/
theorem sendsFrame_iff (conn : Connection) (msg : Message) (htag : Plain msg.tag) :
    conn.SendsFrame msg ↔ maxLen < strlen msg.data ∨ Wire.takes conn.wire.writes 1 = false ∨
      Frame (encode msg) ∧
        (0 ∉ encode msg ∨ Wire.takes conn.wire.writes (strlen (encode msg)) = false) := by
  by_cases hlong : maxLen < strlen msg.data
  · simp only [hlong, true_or, iff_true]
    exact ⟨false, _, [], by simp [send, hlong]; rfl, by simp, nofun, fun _ => ⟨rfl, rfl⟩⟩
  · have hne := cString_encode_ne_nil htag
    have hshort : strlen msg.data ≤ maxLen := by omega
    simp only [hlong, false_or]
    cases hall : Wire.takes conn.wire.writes (strlen (encode msg)) with
    | true =>
      have hout : (writeLoop conn.wire.writes (cString (encode msg))).2.2 ≠ [] := by
        rwa [Wire.writeLoop_whole hall]
      rw [Ne, Wire.writeLoop_nothing hne] at hout
      rw [sendsFrame_whole hshort hall]
      simp only [hout, false_or, reduceCtorEq, or_false]
      constructor
      · exact fun ⟨hc, h⟩ => ⟨h, zero_notMem_of_frame h hc⟩
      · exact fun ⟨h, h0⟩ => ⟨(cString_eq_self h0).symm ▸ h, h⟩
    | false =>
      have hsent : (writeLoop conn.wire.writes (cString (encode msg))).1 = false :=
        (Wire.writeLoop_takes _ _).trans hall
      rw [sendsFrame_loop hshort, hsent, Wire.writeLoop_nothing hne]
      simp [imp_iff_not_or, or_comm]

theorem sendsFrame_iff_sendall :
    (ofFd 4 [] []).SendsFrame ⟨tagSendall, str "hi"⟩ :=
  (sendsFrame_iff _ _ (by decide)).mpr
    (.inr (.inr ⟨⟨str "sendall:hi", by decide, by decide, by decide⟩, .inl (by decide)⟩))

/-- A text of 248 characters, one with a newline in it, and one with a NUL. -/
theorem sendsFrame_fails : Plain tagSendall ∧
    ¬ (ofFd 4 [] []).SendsFrame ⟨tagSendall, List.replicate 248 120⟩ ∧
    ¬ (ofFd 4 [] []).SendsFrame ⟨tagSendall, str "hi\nquit:bye"⟩ ∧
    ¬ (ofFd 4 [] []).SendsFrame ⟨tagSendall, [104, 0, 105]⟩ := by
  refine ⟨by decide, fun h => ?_, fun h => ?_, fun h => ?_⟩
  · obtain ⟨-, -, -, hlen⟩ := ((sendsFrame_whole (by decide +kernel) (Wire.takes_nil _)).mp h).2
    exact absurd hlen (by decide +kernel)
  · obtain ⟨xs, hxs, hnl, -⟩ := ((sendsFrame_whole (by decide) (Wire.takes_nil _)).mp h).2
    have hdrop : xs = str "sendall:hi\nquit:bye" := by
      have hlast := congrArg List.dropLast hxs
      rw [List.dropLast_concat] at hlast
      exact hlast.symm
    exact hnl (hdrop ▸ by decide)
  · obtain ⟨⟨xs, hxs, -⟩, -⟩ := (sendsFrame_whole (by decide) (Wire.takes_nil _)).mp h
    have hlast := congrArg List.getLast? hxs
    rw [List.getLast?_concat] at hlast
    exact absurd hlast (by decide)

/-- Several messages, sent one after the other. -/
def sendAll (conn : Connection) : List Message → List Bool × Connection
  | [] => ([], conn)
  | msg :: msgs =>
    let (sent, conn) := conn.send msg
    let (sents, conn) := conn.sendAll msgs
    (sent :: sents, conn)

/-- The calls of `receive` take the messages one by one: each gives the next message, its data up
to the line terminator, and leaves exactly the lines of those after it. -/
def Framed (conn : Connection) (buffer : ℕ → Bytes) (msg₀ : ℕ → Message) (msgs : List Message) :
    Prop :=
  ∀ k msg, msgs[k]? = some msg → ∃ conn₁ m conn₂, receiveN conn buffer msg₀ k = .ok conn₁ ∧
    receive conn₁ (buffer k) (msg₀ k) = .ok (true, m, conn₂) ∧ m.tag = msg.tag ∧
    removeNewline m.data = msg.data ∧ conn₂.mFdbuf.stream = lines (msgs.drop (k + 1))

/-- Messages that `send` takes go out line by line. -/
theorem written_of_sent {conn : Connection} {msgs : List Message}
    (hmsgs : ∀ msg ∈ msgs, msg.Ordinary) (hsent : ∀ sent ∈ (conn.sendAll msgs).1, sent = true) :
    (conn.sendAll msgs).2.wire.written = conn.wire.written ++ lines msgs := by
  induction msgs generalizing conn with
  | nil => simp [sendAll, lines]
  | cons msg msgs ih =>
    obtain ⟨r, hsend⟩ := conn.send_wire msg
    have hfirst : (conn.wire.send msg).1 = true := hsent _ (by simp [sendAll, hsend])
    have hwritten := Wire.send_whole hfirst
    rw [cString_eq_self (hmsgs msg List.mem_cons_self).nul_encode] at hwritten
    have hrest := ih (fun m hm => hmsgs m (List.mem_cons_of_mem _ hm))
      fun sent hs => hsent sent (by simp only [sendAll]; exact List.mem_cons_of_mem _ hs)
    simp only [sendAll]
    rw [hrest, lines_cons, ← List.append_assoc, hsend, hwritten]

variable {conn : Connection} {buffer : ℕ → Bytes} {msg₀ : ℕ → Message} {msgs : List Message}

/-- A frame that is taken whole is one that the line reader has room for. -/
private theorem Framed.length_le (h : conn.Framed buffer msg₀ msgs)
    (hst : conn.mFdbuf.stream = lines msgs) (hb : conn.mFdbuf.broken = false) :
    ∀ msg ∈ msgs, (encode msg).length ≤ lineMax := by
  intro msg hmsg
  obtain ⟨k, hk⟩ := List.mem_iff_getElem?.mp hmsg
  obtain ⟨hlt, rfl⟩ := List.getElem?_eq_some_iff.mp hk
  obtain ⟨conn₁, m, conn₂, hrun, hrec, -, -, hleft⟩ := h k _ hk
  obtain ⟨hst₁, hb₁⟩ := receiveN_takes hb hrun
  obtain ⟨hst₂, -, -⟩ := receive_takes hb₁ hrec
  have hbefore : conn₁.mFdbuf.stream = encode msgs[k] ++ lines (msgs.drop (k + 1)) := by
    rw [hst₁]
    cases k with
    | zero => rw [rest, hst, ← lines_cons, ← List.drop_eq_getElem_cons hlt, List.drop_zero]
    | succ j =>
      obtain ⟨conn₃, m', conn₄, hrun', hrec', -, -, hleft'⟩ :=
        h j _ (List.getElem?_eq_getElem (by omega : j < msgs.length))
      obtain ⟨hst₃, hb₃⟩ := receiveN_takes hb hrun'
      obtain ⟨hst₄, -, -⟩ := receive_takes hb₃ hrec'
      rw [rest, ← hst₃, ← hst₄, hleft', ← lines_cons, ← List.drop_eq_getElem_cons hlt]
  have hcut := takeLine_append_dropLine newline lineMax conn₁.mFdbuf.stream
  rw [← hst₂, hleft, hbefore] at hcut
  have hline := List.append_cancel_right hcut
  rw [← hline]
  exact length_takeLine_le _ _ _

/-- Frames that the line reader has room for come off one by one. -/
private theorem receiveN_lines (hmsgs : ∀ msg ∈ msgs, msg.Ordinary ∧ (encode msg).length ≤ lineMax)
    (hst : conn.mFdbuf.stream = lines msgs) {k : ℕ} (hk : k ≤ msgs.length) :
    ∃ conn₁, receiveN conn buffer msg₀ k = .ok conn₁ ∧
      conn₁.mFdbuf.stream = lines (msgs.drop k) := by
  induction k with
  | zero => exact ⟨conn, rfl, hst⟩
  | succ k ih =>
    obtain ⟨conn₁, hrun, hst₁⟩ := ih (by omega)
    have hlt : k < msgs.length := by omega
    obtain ⟨hordinary, hlength⟩ := hmsgs _ (List.getElem_mem hlt)
    rw [List.drop_eq_getElem_cons hlt, lines_cons] at hst₁
    obtain ⟨conn₂, hrec, hst₂, -⟩ := (hordinary.fits hlength).receive hordinary.delivery hst₁
      (buffer k) (msg₀ k)
    exact ⟨conn₂, by simp [receiveN, hrun, hrec, bind, Except.bind, pure, Except.pure], hst₂⟩

/-- Messages within `MAX_LEN` that are written back to back are received one by one just if each of
them has a character less than the limit allows. -/
theorem framed_iff {peer : Connection} (hmsgs : ∀ msg ∈ msgs, msg.Ordinary ∧ colon ∉ msg.data ∧
      (encode msg).length ≤ maxLen)
    (hsent : ∀ sent ∈ (conn.sendAll msgs).1, sent = true)
    (hpeer : (conn.sendAll msgs).2.wire.written = conn.wire.written ++ peer.mFdbuf.stream)
    (hb : peer.mFdbuf.broken = false) (buffer : ℕ → Bytes) (msg₀ : ℕ → Message) :
    peer.Framed buffer msg₀ msgs ↔ ∀ msg ∈ msgs, (encode msg).length < maxLen := by
  rw [written_of_sent (fun msg hmsg => (hmsgs msg hmsg).1) hsent] at hpeer
  have hst := (List.append_cancel_left hpeer).symm
  constructor
  · exact fun h msg hmsg => Nat.lt_succ_of_le (h.length_le hst hb msg hmsg)
  · intro hlength k msg hk
    have hle : ∀ msg ∈ msgs, msg.Ordinary ∧ (encode msg).length ≤ lineMax :=
      fun msg hmsg => ⟨(hmsgs msg hmsg).1, Nat.le_of_lt_succ (hlength msg hmsg)⟩
    obtain ⟨hlt, rfl⟩ := List.getElem?_eq_some_iff.mp hk
    obtain ⟨conn₁, hrun, hst₁⟩ := @receiveN_lines peer buffer msg₀ msgs hle hst k hlt.le
    obtain ⟨hordinary, hlength⟩ := hle _ (List.getElem_mem hlt)
    obtain ⟨-, hcolon, -⟩ := hmsgs _ (List.getElem_mem hlt)
    rw [List.drop_eq_getElem_cons hlt, lines_cons] at hst₁
    obtain ⟨conn₂, hrec, hst₂, -⟩ := (hordinary.fits hlength).receive hordinary.delivery hst₁
      (buffer k) (msg₀ k)
    rw [Message.received_eq hordinary.quit hordinary.leave hcolon] at hrec
    exact ⟨conn₁, _, conn₂, hrun, hrec, rfl, removeNewline_append_newline hordinary.noNewline, hst₂⟩

theorem framed_iff_chat :
    (ofFd 4 [.data ⟨str "join:lobby\nsendall:hi\n", by decide⟩] []).Framed (fun _ => [])
      (fun _ => {}) [⟨tagJoin, str "lobby"⟩, ⟨tagSendall, str "hi"⟩] :=
  (@framed_iff (ofFd 4 [] []) _ _ (by decide) (by decide) (by decide) rfl _ _).mpr (by decide)

/-- A join that is encoded in 255 characters, and a text after it. -/
def wideJoin : List Message := [⟨tagJoin, List.replicate 249 114⟩, ⟨tagSendall, str "hi"⟩]

/-- The newline of the join is left on the stream, for the second call to read. -/
theorem not_framed_wideJoin : (∀ msg ∈ wideJoin, msg.Ordinary ∧ colon ∉ msg.data ∧
      (encode msg).length ≤ maxLen) ∧
    (∀ sent ∈ ((ofFd 4 [] []).sendAll wideJoin).1, sent = true) ∧
    ∃ peer : Connection, ((ofFd 4 [] []).sendAll wideJoin).2.wire.written = peer.mFdbuf.stream ∧
      peer.mFdbuf.broken = false ∧ ¬ peer.Framed (fun _ => []) (fun _ => {}) wideJoin := by
  refine ⟨by decide +kernel, by decide +kernel,
    ofFd 4 [.data ⟨lines wideJoin, by decide +kernel⟩] [], by decide +kernel, rfl, fun h => ?_⟩
  have hle := h.length_le (by decide +kernel) rfl _ List.mem_cons_self
  exact absurd hle (by decide +kernel)

/-- What one connection sends the other receives, up to the line terminator. -/
def RoundTrip (conn peer : Connection) (msg : Message) (buffer : Bytes) (msg₀ : Message) : Prop :=
  ∃ conn' m peer', conn.send msg = (true, conn') ∧
    peer.receive buffer msg₀ = .ok (true, m, peer') ∧ m.tag = msg.tag ∧ m.data = msg.data ++ [newline]

private theorem received_data_iff {msg : Message} (h : msg.Ordinary) :
    msg.received.data = msg.data ++ [newline] ↔ colon ∉ msg.data := by
  constructor
  · intro hdata hcolon
    have hmem : colon ∈ msg.received.data := by
      rw [hdata]
      exact List.mem_append_left _ hcolon
    simpa using List.mem_takeWhile_imp hmem
  · intro hcolon
    rw [Message.received_eq h.quit h.leave hcolon]

/-- The data of a message comes back just if there is no separator in it: `receive` keeps what comes
before the first one. -/
theorem roundTrip_iff {conn peer : Connection} {msg : Message} {out more : Bytes}
    (hmsg : msg.Ordinary) (hlength : (encode msg).length ≤ 254)
    (hsend : (conn.send msg).1 = true)
    (hout : (conn.send msg).2.wire.written = conn.wire.written ++ out)
    (hpeer : peer.mFdbuf.stream = out ++ more) (buffer : Bytes) (msg₀ : Message) :
    conn.RoundTrip peer msg buffer msg₀ ↔ colon ∉ msg.data := by
  obtain ⟨r, hwire⟩ := conn.send_wire msg
  rw [hwire] at hsend hout
  rw [Wire.send_whole hsend, cString_eq_self hmsg.nul_encode] at hout
  obtain rfl := List.append_cancel_left hout
  obtain ⟨peer', hrec, -⟩ := (hmsg.fits hlength).receive hmsg.delivery hpeer buffer msg₀
  rw [← received_data_iff hmsg]
  constructor
  · rintro ⟨-, m, peer₁, -, hrec₁, -, hdata⟩
    obtain ⟨rfl, -⟩ : msg.received = m ∧ peer' = peer₁ := by simpa [hrec] using hrec₁
    exact hdata
  · exact fun hdata => ⟨_, _, peer', hwire.trans (congrArg₂ _ hsend rfl), hrec, rfl, hdata⟩

theorem roundTrip_iff_sendall :
    (ofFd 4 [] []).RoundTrip (ofFd 4 [.data ⟨str "sendall:hi\n", by decide⟩] [])
      ⟨tagSendall, str "hi"⟩ [] {} :=
  (@roundTrip_iff _ _ _ (str "sendall:hi\n") [] (by decide) (by decide) rfl (by decide)
    (by decide) _ _).mpr (by decide)

/-- A time of day loses its minutes. -/
theorem not_roundTrip_colon : Message.Ordinary ⟨tagSendall, str "at 10:30"⟩ ∧
    (encode ⟨tagSendall, str "at 10:30"⟩).length ≤ 254 ∧
    ∃ conn peer : Connection, (conn.send ⟨tagSendall, str "at 10:30"⟩).1 = true ∧
      (conn.send ⟨tagSendall, str "at 10:30"⟩).2.wire.written = peer.mFdbuf.stream ∧
      (∃ peer', peer.receive [] {} = .ok (true, ⟨tagSendall, str "at 10"⟩, peer')) ∧
      ¬ conn.RoundTrip peer ⟨tagSendall, str "at 10:30"⟩ [] {} := by
  have hrec : (ofFd 4 [.data ⟨str "sendall:at 10:30\n", by decide⟩] []).receive [] {} =
      .ok (true, ⟨tagSendall, str "at 10"⟩, ofFd 4 [] []) := rfl
  refine ⟨by decide, by decide, ofFd 4 [] [], ofFd 4 [.data ⟨str "sendall:at 10:30\n", by decide⟩] [],
    rfl, by decide, ⟨_, hrec⟩, ?_⟩
  rintro ⟨-, m, peer', -, hrec', -, hdata⟩
  rw [hrec] at hrec'
  cases hrec'
  exact absurd hdata (by decide)

end Connection
end Chat
