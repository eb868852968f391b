import Chat.Client

/-! `receiver.cpp`: the client that joins a room and prints what is delivered to it. -/
namespace Chat
open Lines Tokens

namespace Receiver

/-- The loop over the characters of `data` from position `i` on: it moves `prev` behind each
colon, and stores the piece that the colon ends. -/
def splitLoop (data : Bytes) : Bytes → ℕ → ℕ → List Bytes → ℕ × List Bytes
  | [], _, prev, storage => (prev, storage)
  | c :: cs, i, prev, storage =>
    if c = colon then
      splitLoop data cs (i + 1) (i + 1) (storage ++ [(data.drop prev).take (i - prev)])
    else splitLoop data cs (i + 1) prev storage

/-- The pieces of the data; the last one is stored only if it is not empty. -/
def split (data : Bytes) : List Bytes :=
  let (prev, storage) := splitLoop data data 0 0 []
  if prev < data.length then storage ++ [data.drop prev] else storage

def print (c : Client) (data : Bytes) : Client :=
  match split data with
  | _ :: sender :: text :: _ =>
    { c with stdout := c.stdout ++ cString sender ++ str ": " ++ cString text }
  | _ => c

/-- One iteration of the receive loop. -/
def body (buffer : Bytes) (c : Client) : Except Fault Client := do
  let (msg, c) ← c.receive buffer
  match msg with
  | none => pure (c.fail (str "Receive from server not successful.\n"))
  | some msg =>
    if msg.tag = tagErr then pure (c.fail (cString msg.data))
    else if msg.tag = tagDelivery then pure (print c msg.data)
    else pure c

/-- `main` from the connected socket on, up to `n` iterations of its loop. -/
def main (conn : Connection) (username roomName : Bytes) (buffer : ℕ → Bytes) (n : ℕ) :
    Except Fault Client := do
  let c : Client := { conn }
  if conn.isOpen then
    let (resp, c) ← c.call (buffer 0) ⟨tagRlogin, username⟩ (str "Send rlogin not successful.\n")
      (str "Receive from server not successful.\n")
    match resp with
    | none => pure c
    | some resp =>
      if resp.tag = tagErr then pure (c.fail (cString resp.data))
      else do
        let (resp, c) ← c.call (buffer 1) ⟨tagJoin, roomName⟩
          (str "join messages not successful.\n") (str "Receive from server not successful.\n")
        match resp with
        | none => pure c
        | some resp =>
          if resp.tag = tagErr then pure (c.fail (cString resp.data))
          else c.loop body (fun k => buffer (k + 2)) n
  else pure (c.fail (str "Couldn't connect to server.\n"))

/-- The messages that log the client in and join the room. -/
def requests (username roomName : Bytes) : List Message := [⟨tagRlogin, username⟩, ⟨tagJoin, roomName⟩]

/-- The piece that begins at `prev` has no colon before position `i`; what the loop stores from
there on are the tokens of the rest. -/
private theorem splitLoop_tokens {data pre piece cs : Bytes} {storage : List Bytes}
    (hdata : data = pre ++ piece ++ cs) (hpiece : colon ∉ piece) :
    (let (prev, stored) := splitLoop data cs (pre.length + piece.length) pre.length storage
      if prev < data.length then stored ++ [data.drop prev] else stored) =
      storage ++ tokens colon (piece ++ cs) := by
  induction cs generalizing pre piece storage with
  | nil =>
    rw [List.append_nil] at hdata
    by_cases hnil : piece = []
    · simp [splitLoop, hdata, hnil]
    · have hpos : 0 < piece.length := List.length_pos_of_ne_nil hnil
      simp [splitLoop, hdata, hpos, tokens_of_notMem hpiece hnil]
  | cons c cs ih =>
    by_cases hc : c = colon
    · subst hc
      have hstored : (data.drop pre.length).take (pre.length + piece.length - pre.length) = piece := by
        simp [hdata]
      have hnext := @ih (pre ++ piece ++ [colon]) [] (storage ++ [piece])
        (by simpa using hdata) (by simp)
      rw [splitLoop, if_pos rfl, hstored, tokens_append_sep hpiece]
      simpa [Nat.add_assoc] using hnext
    · have hnext := @ih pre (piece ++ [c]) storage (by simpa using hdata)
        (by simp [hpiece, Ne.symm hc])
      rw [splitLoop, if_neg hc]
      simpa [Nat.add_assoc] using hnext

/-- The second split is the same as the first. -/
theorem split_eq_tokens (data : Bytes) : split data = tokens colon data := by
  have h := @splitLoop_tokens data [] [] data [] rfl (by simp)
  simpa [split] using h

/-- The line printed for a delivery. -/
theorem print_delivery (c : Client) {room user t : Bytes} (hroom : Plain room) (huser : Plain user)
    (ht : Plain t) :
    print c (room ++ [colon] ++ user ++ [colon] ++ (t ++ [newline])) =
      { c with stdout := c.stdout ++ (user ++ str ": " ++ t ++ [newline]) } := by
  have hnul : 0 ∉ t ++ [newline] := by
    have hnewline : (0 : UInt8) ≠ newline := by decide
    simp [ht.noNul, hnewline]
  have hsplit := tokens_delivery hroom.noColon huser.noColon ht.noColon
  unfold print
  rw [split_eq_tokens, hsplit]
  simp [cString_eq_self huser.noNul, cString_eq_self hnul]

theorem print_frame (c : Client) (data : Bytes) :
    (print c data).conn = c.conn ∧ (print c data).exit = c.exit := by
  unfold print
  split <;> exact ⟨rfl, rfl⟩

variable {c c' : Client}

/-- An iteration that finds a delivery takes its line and prints it. -/
theorem body_delivery {msg m : Message} {more : Bytes} (hb : c.conn.mFdbuf.broken = false)
    (hst : c.conn.mFdbuf.stream = Connection.encode msg ++ more) (hfits : msg.Fits)
    (hdecode : decode (Connection.encode msg) = some m) (htag : m.tag = tagDelivery)
    (buffer : Bytes) :
    ∃ conn, body buffer c = .ok (print { c with conn } m.data) ∧
      conn.mFdbuf.stream = more ∧ conn.mFdbuf.broken = false := by
  have hall : ∀ msg' ∈ [msg], msg'.Fits := fun msg' hmsg => by rwa [List.mem_singleton.mp hmsg]
  have hlines : c.conn.mFdbuf.stream = lines [msg] ++ more := by simpa [lines] using hst
  have hline : c.conn.mFdbuf.nextLine = Connection.encode msg := by
    have hfirst := line_lines hall more (show [msg][0]? = some msg from rfl)
    rwa [← hlines] at hfirst
  have hdrop : dropLine newline lineMax c.conn.mFdbuf.stream = more := by
    have hrest := rest_lines hall more (le_refl [msg].length)
    rw [← hlines] at hrest
    simpa [rest, lines] using hrest
  have hne : c.conn.mFdbuf.stream ≠ [] := by
    rw [hst, Message.encode_eq]
    simp
  have hok : FieldsOk c.conn.mFdbuf.nextLine := by
    rw [hline]
    exact fieldsOk_of_decode hdecode
  obtain ⟨ok, m', conn, hrec, hst', hb', hdec⟩ := Connection.receive_decodes hb hne hok buffer {}
  rw [hline, hdecode] at hdec
  obtain ⟨rfl, rfl, -⟩ := hdec
  have herr : tagDelivery ≠ tagErr := by decide
  refine ⟨conn, ?_, hst'.trans hdrop, hb'⟩
  simp [body, Client.receive, hrec, bind, Except.bind, pure, Except.pure, htag, herr]

/-- Where the client stands after its two requests. -/
theorem main_zero {conn : Connection} {username roomName : Bytes} {buffer : ℕ → Bytes}
    (h : main conn username roomName buffer 0 = .ok c) (hlive : c.exit = none) :
    c.conn.wire = (conn.wire.sendAll (requests username roomName)).2 ∧
      (conn.mFdbuf.broken = false →
        c.conn.mFdbuf.stream = rest newline lineMax conn.mFdbuf.stream 2 ∧
          c.conn.mFdbuf.broken = false) := by
  by_cases hopen : conn.isOpen = true
  · simp only [main, hopen, if_true] at h
    obtain ⟨⟨got, c₁⟩, hcall, h⟩ := ok_of_bind h
    obtain ⟨resp, conn₁, h, rfl, hwire₁, hread₁⟩ := Client.call_continues hcall h hlive
    obtain ⟨⟨got', c₂⟩, hcall', h⟩ := ok_of_bind (Client.accepted h hlive)
    obtain ⟨resp', conn₂, h, rfl, hwire₂, hread₂⟩ := Client.call_continues hcall' h hlive
    obtain rfl := Except.ok.inj (Client.accepted h hlive)
    refine ⟨hwire₂.trans (by rw [hwire₁]; rfl), fun hb => ?_⟩
    obtain ⟨hst₁, hb₁⟩ := hread₁ hb
    obtain ⟨hst₂, hb₂⟩ := hread₂ hb₁
    exact ⟨hst₂.trans (by rw [hst₁]; rfl), hb₂⟩
  · simp only [main, hopen] at h
    obtain rfl := Except.ok.inj h
    simp [Client.fail] at hlive

theorem main_succ (conn : Connection) (username roomName : Bytes) (buffer : ℕ → Bytes) (n : ℕ) :
    main conn username roomName buffer (n + 1) = main conn username roomName buffer n >>= fun c =>
      if c.exit.isNone then body (buffer (n + 2)) c else pure c := by
  by_cases hopen : conn.isOpen = true
  · cases hcall : Client.call { conn } (buffer 0) ⟨tagRlogin, username⟩
        (str "Send rlogin not successful.\n") (str "Receive from server not successful.\n") with
    | error f => simp [main, hopen, hcall, bind, Except.bind]
    | ok p =>
      obtain ⟨resp, c₁⟩ := p
      cases resp with
      | none =>
        have hexit := Client.call_none hcall
        simp [main, hopen, hcall, bind, Except.bind, pure, Except.pure, hexit]
      | some resp =>
        by_cases herr : resp.tag = tagErr
        · simp [main, hopen, hcall, bind, Except.bind, pure, Except.pure, herr, Client.fail]
        · cases hcall' : c₁.call (buffer 1) ⟨tagJoin, roomName⟩
              (str "join messages not successful.\n")
              (str "Receive from server not successful.\n") with
          | error f => simp [main, hopen, hcall, hcall', bind, Except.bind, herr]
          | ok p =>
            obtain ⟨resp', c₂⟩ := p
            cases resp' with
            | none =>
              have hexit := Client.call_none hcall'
              simp [main, hopen, hcall, hcall', bind, Except.bind, pure, Except.pure, herr, hexit]
            | some resp' =>
              by_cases herr' : resp'.tag = tagErr
              · simp [main, hopen, hcall, hcall', bind, Except.bind, pure, Except.pure, herr,
                  herr', Client.fail]
              · simp [main, hopen, hcall, hcall', bind, Except.bind, herr, herr', Client.loop]
  · simp [main, hopen, bind, Except.bind, pure, Except.pure, Client.fail]

end Receiver
end Chat
